import CryptoCollector.Collectors.ExactArithmetic
import CryptoCollector.Collectors.OverlayDivisions
import CryptoCollector.Collectors.CycleOverlayKeys
import Mathlib.Data.List.TakeWhile

/-!
# The specification of the overlay

A day lies in the last cycle whose halving is not after it, and the keys of the days
increase with their dates. So the points of the overlay are the days from the first halving
on, in date order, and each cycle begins with its anchor.
-/

namespace CryptoCollector.Collectors
open Foundations

section Assignment

variable {date date' : ℤ} {dates : List ℤ}

theorem length_takeWhile_mono (dates : List ℤ) (h : date ≤ date') :
    (dates.takeWhile (· ≤ date)).length ≤ (dates.takeWhile (· ≤ date')).length := by
  induction dates with
  | nil => exact le_rfl
  | cons halving dates ih =>
    by_cases hle : halving ≤ date
    · simp [hle, hle.trans h, ih]
    · simp [hle]

theorem halvingIndex_mono (dates : List ℤ) (h : date ≤ date') :
    halvingIndex date dates ≤ halvingIndex date' dates :=
  Nat.sub_le_sub_right (length_takeWhile_mono dates h) 1

theorem assignCycleIn_key_lt (dates : List ℤ) (h : date < date') :
    (assignCycleIn date dates).key < (assignCycleIn date' dates).key := by
  unfold CycleAssignment.key assignCycleIn
  rw [Prod.Lex.toLex_lt_toLex]
  rcases (halvingIndex_mono dates h.le).lt_or_eq with hlt | heq
  · left
    dsimp only
    omega
  · right
    dsimp only
    rw [heq]
    constructor
    · rfl
    · omega

/-- The halving the loop stops before is after the day. -/
theorem lt_of_getElem?_takeWhile {next : ℤ}
    (h : dates[(dates.takeWhile (· ≤ date)).length]? = some next) : date < next := by
  induction dates with
  | nil => cases h
  | cons halving dates ih =>
    by_cases hle : halving ≤ date
    · simp only [List.takeWhile_cons, hle, decide_true, if_true, List.length_cons,
        List.getElem?_cons_succ] at h
      exact ih h
    · simp only [List.takeWhile_cons, hle, decide_false, Bool.false_eq_true, if_false,
        List.length_nil, List.getElem?_cons_zero, Option.some.injEq] at h
      omega

theorem halvingIndex_window {first : ℤ} (hhead : dates.head? = some first) (h : first ≤ date) :
    ∃ halving, dates[halvingIndex date dates]? = some halving ∧ halving ≤ date ∧
      ∀ next, dates[halvingIndex date dates + 1]? = some next → date < next := by
  have hpos : 0 < (dates.takeWhile (· ≤ date)).length := by
    cases dates with
    | nil => cases hhead
    | cons halving dates =>
      obtain rfl : halving = first := Option.some.inj hhead
      simp [h]
  have hindex : halvingIndex date dates + 1 = (dates.takeWhile (· ≤ date)).length := by
    unfold halvingIndex
    omega
  have hlt : halvingIndex date dates < (dates.takeWhile (· ≤ date)).length := by omega
  have hprefix : dates.takeWhile (· ≤ date) <+: dates := List.takeWhile_prefix _
  refine ⟨(dates.takeWhile (· ≤ date))[halvingIndex date dates], ?_, ?_, ?_⟩
  · exact List.prefix_iff_getElem?.mp hprefix _ hlt
  · have hmem := List.mem_takeWhile_imp (List.getElem_mem hlt)
    exact of_decide_eq_true hmem
  · intro next hnext
    rw [hindex] at hnext
    exact lt_of_getElem?_takeWhile hnext

theorem inCycle_iff {d : DailyClose} :
    inCycle d = true ↔ NaiveDate.fromYmd 2012 11 28 ≤ d.date := by
  have hfirst : halvingDates.getD 0 0 = NaiveDate.fromYmd 2012 11 28 := rfl
  unfold inCycle assignCycle
  rw [hfirst]
  split_ifs with hbefore
  · simpa using hbefore
  · simpa using hbefore

/-- What `assign_cycle` says of a day: its halving, and that the next one is still to come. -/
theorem assignCycle_window {a : CycleAssignment} (h : assignCycle date = some a) :
    1 ≤ a.cycleNumber ∧ halvingDates[(a.cycleNumber - 1).toNat]? = some a.halvingDate ∧
      a.halvingDate + a.daysSinceHalving = date ∧ 0 ≤ a.daysSinceHalving ∧
      ∀ next, halvingDates[a.cycleNumber.toNat]? = some next → date < next := by
  have hfirst : NaiveDate.fromYmd 2012 11 28 ≤ date := by
    have hin : inCycle ⟨date, 0⟩ = true := by simp [inCycle, h]
    exact inCycle_iff.mp hin
  have hhead : halvingDates.head? = some (NaiveDate.fromYmd 2012 11 28) := rfl
  obtain ⟨halving, hhalving, hle, hnext⟩ := halvingIndex_window hhead hfirst
  have hget : halvingDates.getD (halvingIndex date halvingDates) 0 = halving := by
    rw [List.getD_eq_getElem?_getD, hhalving, Option.getD_some]
  have hindex : ((halvingIndex date halvingDates : ℤ) + 1 - 1).toNat =
      halvingIndex date halvingDates := by omega
  have hsucc : ((halvingIndex date halvingDates : ℤ) + 1).toNat =
      halvingIndex date halvingDates + 1 := by omega
  rw [assignCycle_eq h]
  simp only [assignCycleIn, hget, hindex, hsucc]
  refine ⟨by omega, hhalving, by omega, by omega, hnext⟩

end Assignment

section CycleDays

variable {daily daily' : List DailyClose}

theorem cycleDays_keys_ascending (hdates : (daily.map DailyClose.date).Nodup) :
    Ascending (fun c => c.assignment.key) (cycleDays daily) := by
  have hasc : Ascending DailyClose.date ((sortBy DailyClose.date daily).filter inCycle) :=
    (sortBy_ascending DailyClose.date hdates).filter inCycle
  rw [← cycleDays_map_close, Ascending, List.pairwise_map] at hasc
  apply List.Pairwise.imp_of_mem _ hasc
  intro c c' hc hc' hlt
  dsimp only
  rw [assignCycle_eq (mem_cycleDays.mp hc).2, assignCycle_eq (mem_cycleDays.mp hc').2]
  exact assignCycleIn_key_lt halvingDates hlt

theorem cycleNumber_le_of_key_lt {a b : CycleAssignment} (h : a.key < b.key) :
    a.cycleNumber ≤ b.cycleNumber := by
  rcases Prod.Lex.toLex_lt_toLex.mp h with hlt | ⟨heq, -⟩
  · exact hlt.le
  · exact heq.le

theorem daysSinceHalving_lt_of_key_lt {a b : CycleAssignment} (h : a.key < b.key)
    (hcycle : a.cycleNumber = b.cycleNumber) : a.daysSinceHalving < b.daysSinceHalving := by
  rcases Prod.Lex.toLex_lt_toLex.mp h with hlt | ⟨-, hdays⟩
  · exact absurd hcycle hlt.ne
  · exact hdays

theorem sortBy_items (hdates : (daily.map DailyClose.date).Nodup) {cycle : Group ℤ CycleDay}
    (hcycle : cycle ∈ groupBy (fun c => c.assignment.cycleNumber) (cycleDays daily)) :
    sortBy (fun c => c.assignment.daysSinceHalving) cycle.items = cycle.items := by
  apply List.Pairwise.insertionSort_eq
  rw [← mem_groupBy_iff.mp hcycle]
  apply List.Pairwise.imp_of_mem _ ((cycleDays_keys_ascending hdates).filter _)
  intro c c' hc hc' hlt
  have hkey := of_decide_eq_true (List.mem_filter.mp hc).2
  have hkey' := of_decide_eq_true (List.mem_filter.mp hc').2
  exact (daysSinceHalving_lt_of_key_lt hlt (hkey.trans hkey'.symm)).le

theorem cycleDays_eq_of_perm (hdates : (daily.map DailyClose.date).Nodup)
    (hperm : daily.Perm daily') : cycleDays daily' = cycleDays daily := by
  unfold cycleDays
  rw [sortBy_date_eq_of_perm hdates hperm]

end CycleDays

/-- The first point of its cycle. -/
def FirstOfCycle (pts : List OverlayPoint) (p : OverlayPoint) : Prop :=
  p ∈ pts ∧ ∀ q ∈ pts, q.cycleNumber = p.cycleNumber → p.daysSinceHalving ≤ q.daysSinceHalving

/-- The points are the overlay of the series: which days have one, where they lie, and on
what each cycle is based. -/
structure OverlayOf (daily : List DailyClose) (pts : List OverlayPoint) : Prop where
  days : (pts.map OverlayPoint.dayClose).Perm
    (daily.filter fun d => NaiveDate.fromYmd 2012 11 28 ≤ d.date)
  ascending : Ascending OverlayPoint.key pts
  halving : ∀ p ∈ pts, 1 ≤ p.cycleNumber ∧
    halvingDates[(p.cycleNumber - 1).toNat]? = some p.halvingDate
  ts : ∀ p ∈ pts, p.ts = p.halvingDate + p.daysSinceHalving ∧ 0 ≤ p.daysSinceHalving
  beforeNext : ∀ p ∈ pts, ∀ next, halvingDates[p.cycleNumber.toNat]? = some next → p.ts < next
  base : ∀ p, FirstOfCycle pts p → p.normHalving = 1
  approximate : ∀ p, FirstOfCycle pts p → ∀ q ∈ pts, q.cycleNumber = p.cycleNumber →
    (q.halvingBaselineApproximate = true ↔ p.daysSinceHalving ≠ 0)

namespace DecimalArith

variable {arith : DecimalArith} {daily : List DailyClose} {pts : List OverlayPoint}

/-- A point is that of a day of the cycle, which begins with `first` and has the least
close `low`. -/
structure PointOf (arith : DecimalArith) (cycle : Group ℤ CycleDay) (first : CycleDay) (low : ℚ)
    (c : CycleDay) (p : OverlayPoint) : Prop where
  made : p = realPoint cycle first c p.normHalving p.normCycleLow
  quotient : arith.checkedDiv c.price first.price = some p.normHalving
  lowQuotient : arith.checkedDiv c.price low = some p.normCycleLow

/-- The points of a cycle are those of its days in order. -/
structure CyclePoints (arith : DecimalArith) (cycle : Group ℤ CycleDay) (first : CycleDay) (low : ℚ)
    (points : List OverlayPoint) : Prop where
  first_mem : first ∈ cycle.items
  first_le : ∀ c ∈ cycle.items, first.assignment.daysSinceHalving ≤ c.assignment.daysSinceHalving
  low_mem : ∃ c ∈ cycle.items, c.price = low
  low_le : ∀ c ∈ cycle.items, low ≤ c.price
  closes : points.map OverlayPoint.dayClose =
    (sortBy (fun c => c.assignment.daysSinceHalving) cycle.items).map
      fun c => DailyClose.mk c.date c.price
  ofPoint : ∀ p ∈ points, ∃ c ∈ cycle.items, arith.PointOf cycle first low c p
  ofDay : ∀ c ∈ cycle.items, ∃ p ∈ points, arith.PointOf cycle first low c p

theorem overlayCycle_cyclePoints {cycle : Group ℤ CycleDay}
    (h : (arith.overlayCycle cycle).result = some pts) :
    ∃ first low, arith.CyclePoints cycle first low pts := by
  obtain ⟨first, rest, low, hsorted, -, hlow, hcycle⟩ := overlayCycle_eq arith cycle
  rw [hcycle, Dividing.result_mapM] at h
  obtain ⟨hlowmem, hlowle⟩ := List.min?_eq_some_iff.mp hlow
  have hitems : ∀ c, c ∈ first :: rest ↔ c ∈ cycle.items := by
    intro c
    rw [← hsorted, mem_sortBy]
  have hpoint : ∀ c p, (arith.quotients (realPoint cycle first c) c.price first.price low).result =
      some p → arith.PointOf cycle first low c p := by
    intro c p hp
    simp only [quotients, Dividing.result_bind, result_div, Dividing.result_pure,
      Option.bind_eq_some_iff] at hp
    obtain ⟨n, hn, m, hm, hp⟩ := hp
    cases hp
    exact ⟨rfl, hn, hm⟩
  refine ⟨first, low, (hitems first).mp List.mem_cons_self, ?_, ?_, ?_, ?_, ?_, ?_⟩
  · intro c hc
    have hle : (first :: rest).Pairwise fun x y =>
        x.assignment.daysSinceHalving ≤ y.assignment.daysSinceHalving := by
      rw [← hsorted]
      exact List.pairwise_insertionSort
        (fun x y => x.assignment.daysSinceHalving ≤ y.assignment.daysSinceHalving) cycle.items
    rcases List.mem_cons.mp ((hitems c).mpr hc) with rfl | hrest
    · exact le_rfl
    · exact (List.pairwise_cons.mp hle).1 c hrest
  · obtain ⟨c, hc, hprice⟩ := List.mem_map.mp hlowmem
    exact ⟨c, (mem_sortBy _).mp hc, hprice⟩
  · intro c hc
    exact hlowle _ (List.mem_map_of_mem ((mem_sortBy _).mpr hc))
  · rw [hsorted]
    apply map_eq_of_mapM _ h
    intro c _ p hp
    rw [(hpoint c p hp).made]
    rfl
  · intro p hp
    obtain ⟨c, hc, hmade⟩ := exists_entry_of_mapM h hp
    exact ⟨c, (hitems c).mp hc, hpoint c p hmade⟩
  · intro c hc
    obtain ⟨p, hp, hmade⟩ := exists_result_of_mapM h ((hitems c).mpr hc)
    exact ⟨p, hp, hpoint c p hmade⟩

theorem computeOverlay_mapM (h : (arith.computeOverlay daily).result = some pts) :
    ∃ cycles, (groupBy (fun c => c.assignment.cycleNumber) (cycleDays daily)).mapM
      (fun cycle => (arith.overlayCycle cycle).result) = some cycles ∧ pts = cycles.flatten := by
  rw [computeOverlay, Dividing.result_bind, Dividing.result_mapM, Option.bind_eq_some_iff] at h
  obtain ⟨cycles, hcycles, hpts⟩ := h
  exact ⟨cycles, hcycles, (Option.some.inj hpts).symm⟩

/-- The points are the days of the series that lie in a cycle, in date order. -/
theorem computeOverlay_map_dayClose (hdates : (daily.map DailyClose.date).Nodup)
    (h : (arith.computeOverlay daily).result = some pts) :
    pts.map OverlayPoint.dayClose = (sortBy DailyClose.date daily).filter inCycle := by
  obtain ⟨cycles, hcycles, rfl⟩ := computeOverlay_mapM h
  have hcycle : ∀ cycle ∈ groupBy (fun c => c.assignment.cycleNumber) (cycleDays daily),
      ∀ points, (arith.overlayCycle cycle).result = some points →
        points.map OverlayPoint.dayClose =
          cycle.items.map fun c => DailyClose.mk c.date c.price := by
    intro cycle hmem points hpoints
    obtain ⟨first, low, hcycle⟩ := overlayCycle_cyclePoints hpoints
    rw [hcycle.closes, sortBy_items hdates hmem]
  have hsorted : (cycleDays daily).Pairwise fun c c' =>
      c.assignment.cycleNumber ≤ c'.assignment.cycleNumber :=
    (cycleDays_keys_ascending hdates).imp cycleNumber_le_of_key_lt
  rw [flatMap_eq_of_mapM hcycle hcycles, ← List.map_flatMap,
    flatMap_items_groupBy_of_sorted hsorted, cycleDays_map_close]

theorem mem_computeOverlay (h : (arith.computeOverlay daily).result = some pts) {p : OverlayPoint} :
    p ∈ pts ↔ ∃ cycle ∈ groupBy (fun c => c.assignment.cycleNumber) (cycleDays daily),
      ∃ points, (arith.overlayCycle cycle).result = some points ∧ p ∈ points := by
  obtain ⟨cycles, hcycles, rfl⟩ := computeOverlay_mapM h
  exact mem_flatten_of_mapM hcycles

theorem CyclePoints.cycleNumber {cycle : Group ℤ CycleDay} {first : CycleDay} {low : ℚ}
    {points : List OverlayPoint} (h : arith.CyclePoints cycle first low points) {p : OverlayPoint}
    (hp : p ∈ points) : p.cycleNumber = cycle.key := by
  obtain ⟨c, -, hpoint⟩ := h.ofPoint p hp
  rw [hpoint.made]
  rfl

theorem computeOverlay_cyclePoints (h : (arith.computeOverlay daily).result = some pts)
    {p : OverlayPoint} (hp : p ∈ pts) :
    ∃ cycle first low points,
      cycle ∈ groupBy (fun c => c.assignment.cycleNumber) (cycleDays daily) ∧
        arith.CyclePoints cycle first low points ∧
        ∀ q, q ∈ points ↔ q ∈ pts ∧ q.cycleNumber = p.cycleNumber := by
  obtain ⟨cycle, hcycle, points, hpoints, hmem⟩ := (mem_computeOverlay h).mp hp
  obtain ⟨first, low, hall⟩ := overlayCycle_cyclePoints hpoints
  refine ⟨cycle, first, low, points, hcycle, hall, ?_⟩
  intro q
  rw [hall.cycleNumber hmem]
  constructor
  · intro hq
    exact ⟨(mem_computeOverlay h).mpr ⟨cycle, hcycle, points, hpoints, hq⟩, hall.cycleNumber hq⟩
  · rintro ⟨hq, hnumber⟩
    obtain ⟨cycle', hcycle', points', hpoints', hmem'⟩ := (mem_computeOverlay h).mp hq
    obtain ⟨first', low', hall'⟩ := overlayCycle_cyclePoints hpoints'
    rw [hall'.cycleNumber hmem'] at hnumber
    obtain rfl := (groupBy_ascending _ _).key_inj hcycle' hcycle hnumber
    rwa [← Option.some.inj (hpoints'.symm.trans hpoints)]

theorem computeOverlay_assignment (h : (arith.computeOverlay daily).result = some pts)
    {p : OverlayPoint} (hp : p ∈ pts) :
    assignCycle p.ts = some ⟨p.cycleNumber, p.halvingDate, p.daysSinceHalving⟩ := by
  obtain ⟨cycle, first, low, points, hcycle, hall, hpoints⟩ := computeOverlay_cyclePoints h hp
  obtain ⟨c, hc, hpoint⟩ := hall.ofPoint p ((hpoints p).mpr ⟨hp, rfl⟩)
  obtain ⟨hday, hnumber⟩ := key_of_mem_items hcycle hc
  obtain ⟨hfirst, hfirstNumber⟩ := key_of_mem_items hcycle (List.mem_cons_self : cycle.first ∈ _)
  have hassign := (mem_cycleDays.mp hday).2
  obtain ⟨-, hhalving, -⟩ := assignCycle_window hassign
  obtain ⟨-, hfirstHalving, -⟩ := assignCycle_window (mem_cycleDays.mp hfirst).2
  rw [hnumber] at hhalving
  rw [hfirstNumber, hhalving] at hfirstHalving
  have hsame : cycle.first.assignment.halvingDate = c.assignment.halvingDate :=
    (Option.some.inj hfirstHalving).symm
  rw [hpoint.made]
  simp only [realPoint, hassign, hsame, ← hnumber]

theorem computeOverlay_key (h : (arith.computeOverlay daily).result = some pts)
    {p : OverlayPoint} (hp : p ∈ pts) : p.key = (assignCycleIn p.ts halvingDates).key := by
  rw [← assignCycle_eq (computeOverlay_assignment h hp)]
  rfl

theorem computeOverlay_dayClose_mem (h : (arith.computeOverlay daily).result = some pts)
    {p : OverlayPoint} (hp : p ∈ pts) : p.dayClose ∈ daily := by
  obtain ⟨cycle, first, low, points, hcycle, hall, hpoints⟩ := computeOverlay_cyclePoints h hp
  obtain ⟨c, hc, hpoint⟩ := hall.ofPoint p ((hpoints p).mpr ⟨hp, rfl⟩)
  have hday := (mem_cycleDays.mp (key_of_mem_items hcycle hc).1).1
  rw [hpoint.made]
  exact hday

theorem computeOverlay_ascending (hdates : (daily.map DailyClose.date).Nodup)
    (h : (arith.computeOverlay daily).result = some pts) : Ascending OverlayPoint.key pts := by
  have hasc : Ascending DailyClose.date ((sortBy DailyClose.date daily).filter inCycle) :=
    (sortBy_ascending DailyClose.date hdates).filter inCycle
  rw [← computeOverlay_map_dayClose hdates h, Ascending, List.pairwise_map] at hasc
  apply List.Pairwise.imp_of_mem _ hasc
  intro p q hp hq hlt
  rw [computeOverlay_key h hp, computeOverlay_key h hq]
  exact assignCycleIn_key_lt halvingDates hlt

theorem computeOverlay_first (hdates : (daily.map DailyClose.date).Nodup)
    (h : (arith.computeOverlay daily).result = some pts) {p : OverlayPoint}
    (hfirst : FirstOfCycle pts p) :
    ∃ cycle first low points,
      cycle ∈ groupBy (fun c => c.assignment.cycleNumber) (cycleDays daily) ∧
        arith.CyclePoints cycle first low points ∧ arith.PointOf cycle first low first p ∧
        ∀ q, q ∈ points ↔ q ∈ pts ∧ q.cycleNumber = p.cycleNumber := by
  obtain ⟨hp, hleast⟩ := hfirst
  obtain ⟨cycle, first, low, points, hcycle, hall, hpoints⟩ := computeOverlay_cyclePoints h hp
  obtain ⟨q, hq, hpoint⟩ := hall.ofDay first hall.first_mem
  obtain ⟨c, hc, hpc⟩ := hall.ofPoint p ((hpoints p).mpr ⟨hp, rfl⟩)
  obtain ⟨hqmem, hqnumber⟩ := (hpoints q).mp hq
  have hle := hleast q hqmem hqnumber
  have hge := hall.first_le c hc
  have hqdays : q.daysSinceHalving = first.assignment.daysSinceHalving := by
    rw [hpoint.made]
    rfl
  have hpdays : p.daysSinceHalving = c.assignment.daysSinceHalving := by
    rw [hpc.made]
    rfl
  have hkey : q.key = p.key := by
    have hdays : q.daysSinceHalving = p.daysSinceHalving := by omega
    rw [OverlayPoint.key, OverlayPoint.key, hqnumber, hdays]
  obtain rfl := (computeOverlay_ascending hdates h).key_inj hqmem hp hkey
  exact ⟨cycle, first, low, points, hcycle, hall, hpoint, hpoints⟩

/-- Whatever the points' quotients are rounded to, they are the overlay of the series. -/
theorem overlayOf_computeOverlay (hdates : (daily.map DailyClose.date).Nodup)
    (hdaily : ∀ d ∈ daily, arith.IsDecimal d.close)
    (h : (arith.computeOverlay daily).result = some pts) : OverlayOf daily pts := by
  constructor
  · rw [computeOverlay_map_dayClose hdates h]
    have hperm := (List.perm_insertionSort (fun x y : DailyClose => x.date ≤ y.date) daily).filter
      inCycle
    have hcondition : inCycle = fun d => decide (NaiveDate.fromYmd 2012 11 28 ≤ d.date) := by
      funext d
      rw [Bool.eq_iff_iff, decide_eq_true_iff]
      exact inCycle_iff
    rw [← hcondition]
    exact hperm
  · exact computeOverlay_ascending hdates h
  · intro p hp
    obtain ⟨hone, hhalving, -⟩ := assignCycle_window (computeOverlay_assignment h hp)
    exact ⟨hone, hhalving⟩
  · intro p hp
    obtain ⟨-, -, hts, hdays, -⟩ := assignCycle_window (computeOverlay_assignment h hp)
    exact ⟨hts.symm, hdays⟩
  · intro p hp
    obtain ⟨-, -, -, -, hnext⟩ := assignCycle_window (computeOverlay_assignment h hp)
    exact hnext
  · intro p hfirst
    obtain ⟨cycle, first, low, points, hcycle, hall, hpoint, -⟩ :=
      computeOverlay_first hdates h hfirst
    have hquotient := hpoint.quotient
    have hne : first.price ≠ 0 := by
      intro hzero
      rw [hzero, arith.checkedDiv_zero] at hquotient
      cases hquotient
    have hdecimal : arith.IsDecimal first.price :=
      isDecimal_pricesOf hdaily hcycle _
        (List.mem_map_of_mem ((mem_sortBy _).mpr hall.first_mem))
    rw [arith.checkedDiv_self _ hdecimal hne] at hquotient
    exact (Option.some.inj hquotient).symm
  · intro p hfirst q hq hnumber
    obtain ⟨cycle, first, low, points, -, hall, hpoint, hpoints⟩ :=
      computeOverlay_first hdates h hfirst
    obtain ⟨c, -, hqpoint⟩ := hall.ofPoint q ((hpoints q).mpr ⟨hq, hnumber⟩)
    rw [hqpoint.made, hpoint.made]
    simp [realPoint]

end DecimalArith

section Exact

variable {daily : List DailyClose} {pts : List OverlayPoint}

theorem computeOverlay_exists (hpos : ∀ d ∈ daily, 0 < d.close) :
    ∃ pts, computeOverlay daily = some pts := by
  apply Option.ne_none_iff_exists'.mp
  rw [← DecimalArith.computeOverlay_exact, DecimalArith.result_computeOverlay_ne_none_iff]
  intro cycle hcycle first hfirst low hlow price _
  obtain ⟨group, hgroup, rfl⟩ := List.mem_map.mp hcycle
  have hprice : ∀ x ∈ pricesOf group, x ≠ 0 := by
    intro x hx
    obtain ⟨c, hc, rfl⟩ := List.mem_map.mp hx
    obtain ⟨hday, -⟩ := key_of_mem_items hgroup ((mem_sortBy _).mp hc)
    exact (hpos _ (mem_cycleDays.mp hday).1).ne'
  have hfirst := hprice first (List.mem_of_mem_head? hfirst)
  have hlow := hprice low (List.min?_mem hlow)
  constructor
  · simp [exactArith, DecimalArith.checkedDiv_of_ne hfirst]
  · simp [exactArith, DecimalArith.checkedDiv_of_ne hlow]

theorem computeOverlay_normCycleLow (hpos : ∀ d ∈ daily, 0 < d.close)
    (h : computeOverlay daily = some pts) {p : OverlayPoint} (hp : p ∈ pts) :
    IsLeast {x | ∃ q ∈ pts, q.cycleNumber = p.cycleNumber ∧ x = q.normCycleLow} 1 := by
  rw [← DecimalArith.computeOverlay_exact] at h
  obtain ⟨cycle, first, low, points, hcycle, hall, hpoints⟩ :=
    DecimalArith.computeOverlay_cyclePoints h hp
  obtain ⟨lowest, hlowest, hlow⟩ := hall.low_mem
  have hlowpos : 0 < low := by
    rw [← hlow]
    exact hpos _ (mem_cycleDays.mp (key_of_mem_items hcycle hlowest).1).1
  have hquotient : ∀ c q, exactArith.PointOf cycle first low c q →
      q.normCycleLow = c.price / low := by
    intro c q hq
    have hdiv : checkedDiv c.price low = some q.normCycleLow := hq.lowQuotient
    rw [DecimalArith.checkedDiv_of_ne hlowpos.ne'] at hdiv
    exact (Option.some.inj hdiv).symm
  constructor
  · obtain ⟨q, hq, hpoint⟩ := hall.ofDay lowest hlowest
    obtain ⟨hqmem, hqnumber⟩ := (hpoints q).mp hq
    refine ⟨q, hqmem, hqnumber, ?_⟩
    rw [hquotient lowest q hpoint, hlow, div_self hlowpos.ne']
  · rintro x ⟨q, hq, hnumber, rfl⟩
    obtain ⟨c, hc, hpoint⟩ := hall.ofPoint q ((hpoints q).mpr ⟨hq, hnumber⟩)
    rw [hquotient c q hpoint, one_le_div hlowpos]
    exact hall.low_le c hc

/-- `compute_overlay` meets its specification where the quotients of every cycle fit, and
returns nothing elsewhere; over exact quotients the low of a cycle is met as well. -/
theorem computeOverlay_meets_specification (hdates : (daily.map DailyClose.date).Nodup)
    (hpos : ∀ d ∈ daily, 0 < d.close) :
    (∀ arith : DecimalArith, (∀ d ∈ daily, arith.IsDecimal d.close) →
      ((∃ pts, (arith.computeOverlay daily).result = some pts) ↔
        ∀ cycle ∈ cycleCloses daily, arith.Fits cycle.2 cycle.2.head? cycle.2.min?) ∧
      (∀ pts, (arith.computeOverlay daily).result = some pts → OverlayOf daily pts) ∧
      ∀ daily', daily.Perm daily' → arith.computeOverlay daily' = arith.computeOverlay daily) ∧
    (∃ pts, computeOverlay daily = some pts ∧ OverlayOf daily pts ∧
      ∀ p ∈ pts, IsLeast {x | ∃ q ∈ pts, q.cycleNumber = p.cycleNumber ∧ x = q.normCycleLow} 1) ∧
    ∀ daily', daily.Perm daily' → computeOverlay daily' = computeOverlay daily := by
  refine ⟨?_, ?_, ?_⟩
  · intro arith hdaily
    refine ⟨?_, fun pts hpts => DecimalArith.overlayOf_computeOverlay hdates hdaily hpts, ?_⟩
    · rw [← Option.ne_none_iff_exists', DecimalArith.result_computeOverlay_ne_none_iff]
    · intro daily' hperm
      rw [DecimalArith.computeOverlay, DecimalArith.computeOverlay,
        cycleDays_eq_of_perm hdates hperm]
  · obtain ⟨pts, hpts⟩ := computeOverlay_exists hpos
    refine ⟨pts, hpts, ?_, fun p hp => computeOverlay_normCycleLow hpos hpts hp⟩
    rw [← DecimalArith.computeOverlay_exact] at hpts
    exact DecimalArith.overlayOf_computeOverlay hdates (fun d _ => trivial) hpts
  · intro daily' hperm
    rw [computeOverlay, computeOverlay, cycleDays_eq_of_perm hdates hperm]

/-- A day of the fourth cycle, the halving of the first and the day before it. -/
def shuffledCloses : List DailyClose :=
  [⟨NaiveDate.fromYmd 2024 4 21, 64926⟩, ⟨NaiveDate.fromYmd 2012 11 28, 61 / 5⟩,
    ⟨NaiveDate.fromYmd 2012 11 27, 12⟩]

theorem shuffledCloses_meet_specification :
    (∃ pts, (decimal96.computeOverlay shuffledCloses).result = some pts ∧
      OverlayOf shuffledCloses pts) ∧
    ∃ pts, computeOverlay shuffledCloses = some pts ∧ OverlayOf shuffledCloses pts ∧
      ∀ p ∈ pts, IsLeast {x | ∃ q ∈ pts, q.cycleNumber = p.cycleNumber ∧ x = q.normCycleLow} 1 := by
  have hdates : (shuffledCloses.map DailyClose.date).Nodup := by decide
  have hpos : ∀ d ∈ shuffledCloses, 0 < d.close := by decide +kernel
  have hdecimal : ∀ d ∈ shuffledCloses, decimal96.IsDecimal d.close := by
    intro d hd
    rcases List.mem_cons.mp hd with rfl | hd
    · exact ⟨64926, 0, by norm_num, by norm_num, by norm_num⟩
    rcases List.mem_pair.mp hd with rfl | rfl
    · exact ⟨122, 1, by norm_num, by norm_num, by norm_num⟩
    · exact ⟨12, 0, by norm_num, by norm_num, by norm_num⟩
  have hcloses : cycleCloses shuffledCloses = [(1, [61 / 5]), (4, [64926])] := by decide +kernel
  have hfits : ∀ cycle ∈ cycleCloses shuffledCloses,
      decimal96.Fits cycle.2 cycle.2.head? cycle.2.min? := by
    rw [hcloses]
    unfold DecimalArith.Fits
    decide +kernel
  obtain ⟨hdecimals, hexact, -⟩ := computeOverlay_meets_specification hdates hpos
  obtain ⟨hexists, hoverlay, -⟩ := hdecimals decimal96 hdecimal
  obtain ⟨pts, hpts⟩ := hexists.mpr hfits
  exact ⟨⟨pts, hpts, hoverlay pts hpts⟩, hexact⟩

/-- A close that is the least there is, and on the next day one that it cannot divide. -/
def leastClose : List DailyClose :=
  [⟨NaiveDate.fromYmd 2024 4 20, 1 / 10 ^ 28⟩, ⟨NaiveDate.fromYmd 2024 4 21, 79⟩]

theorem leastClose_has_no_overlay :
    (leastClose.map DailyClose.date).Nodup ∧
      (∀ d ∈ leastClose, 0 < d.close ∧ decimal96.IsDecimal d.close) ∧
      (decimal96.computeOverlay leastClose).result = none := by
  refine ⟨by decide, ?_, by decide +kernel⟩
  intro d hd
  rcases List.mem_pair.mp hd with rfl | rfl
  · exact ⟨by norm_num, 1, 28, by norm_num, by norm_num, by norm_num⟩
  · exact ⟨by norm_num, 79, 0, by norm_num, by norm_num, by norm_num⟩

end Exact

end CryptoCollector.Collectors

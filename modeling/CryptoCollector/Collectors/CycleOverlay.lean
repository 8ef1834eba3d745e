import CryptoCollector.Calendar
import CryptoCollector.Foundations.Groups
import CryptoCollector.Foundations.Partial

/-!
# The halving-cycle overlay

Days are assigned to halving cycles, the closes of a cycle are divided by its
first and by its least close, and the returns of the last cycle are replayed
forward from the last close. A division by zero panics, which is `none` here.
-/

namespace CryptoCollector.Collectors
open Foundations

def halvingDates : List ℤ :=
  [NaiveDate.fromYmd 2012 11 28, NaiveDate.fromYmd 2016 7 9, NaiveDate.fromYmd 2020 5 11,
    NaiveDate.fromYmd 2024 4 20]

/-- `projected_halving_dates`: one estimated halving more. -/
def projectedHalvingDates : List ℤ := halvingDates ++ [NaiveDate.fromYmd 2028 4 20]

structure CycleAssignment where
  cycleNumber : ℤ
  halvingDate : ℤ
  daysSinceHalving : ℤ
  deriving DecidableEq, Repr

/-- The loop over the halvings: the last index whose date is not after `date`,
0 if there is none. -/
def halvingIndex (date : ℤ) (dates : List ℤ) : ℕ := (dates.takeWhile (· ≤ date)).length - 1

def assignCycleIn (date : ℤ) (dates : List ℤ) : CycleAssignment :=
  let idx := halvingIndex date dates
  let halvingDate := dates.getD idx 0
  ⟨idx + 1, halvingDate, date - halvingDate⟩

/-- `assign_cycle`: none before the first halving. -/
def assignCycle (date : ℤ) : Option CycleAssignment :=
  if date < halvingDates.getD 0 0 then none else some (assignCycleIn date halvingDates)

structure DailyClose where
  date : ℤ
  close : ℚ
  deriving DecidableEq, Repr

structure OverlayPoint where
  cycleNumber : ℤ
  halvingDate : ℤ
  daysSinceHalving : ℤ
  ts : ℤ
  price : ℚ
  normHalving : ℚ
  normCycleLow : ℚ
  halvingBaselineApproximate : Bool
  projected : Bool
  priceLow : Option ℚ
  priceHigh : Option ℚ
  deriving DecidableEq, Repr

/-- `/` on `Decimal`. -/
def checkedDiv (x y : ℚ) : Option ℚ := if y = 0 then none else some (x / y)

structure CycleDay where
  assignment : CycleAssignment
  date : ℤ
  price : ℚ
  deriving DecidableEq, Repr

def overlayCycle (cycle : Group ℤ CycleDay) : Option (List OverlayPoint) := do
  let points := sortBy (fun p => p.assignment.daysSinceHalving) cycle.items
  let first ← points.head?
  let cycleLow ← (points.map CycleDay.price).min?
  points.mapM fun p => do
    let normHalving ← checkedDiv p.price first.price
    let normCycleLow ← checkedDiv p.price cycleLow
    return {
      cycleNumber := cycle.key
      halvingDate := cycle.first.assignment.halvingDate
      daysSinceHalving := p.assignment.daysSinceHalving
      ts := p.date
      price := p.price
      normHalving := normHalving
      normCycleLow := normCycleLow
      halvingBaselineApproximate := decide (first.assignment.daysSinceHalving ≠ 0)
      projected := false
      priceLow := none
      priceHigh := none }

/-- The days that lie in a cycle, in date order. -/
def cycleDays (daily : List DailyClose) : List CycleDay :=
  (sortBy DailyClose.date daily).filterMap fun d =>
    (assignCycle d.date).map fun a => ⟨a, d.date, d.close⟩

def computeOverlay (daily : List DailyClose) : Option (List OverlayPoint) := do
  let cycles ← (groupBy (fun p => p.assignment.cycleNumber) (cycleDays daily)).mapM overlayCycle
  return cycles.flatten

/-- `CYCLE_DAYS`: the days of one halving cycle. -/
def cycleLengthDays : ℕ := 1458

/-- The series as a `BTreeMap`: in date order, the last close of a date. -/
def collectSeries (daily : List DailyClose) : List DailyClose :=
  (groupBy DailyClose.date daily).map Group.last

def priceAtOrBefore (series : List DailyClose) (date : ℤ) : Option ℚ :=
  ((series.takeWhile fun d => d.date ≤ date).getLast?).map DailyClose.close

/-- A projected day before it is normalized. The replay has no band. -/
structure RawPoint where
  ts : ℤ
  price : ℚ
  priceLow : Option ℚ
  priceHigh : Option ℚ
  assignment : CycleAssignment
  deriving DecidableEq, Repr

/-- The price a projected cycle is anchored on: that of its real points where it
has any, else its own first. -/
def cycleAnchor (realPoints : List OverlayPoint) (cycle : Group ℤ RawPoint) : Option ℚ :=
  match realPoints.find? fun p => p.cycleNumber = cycle.key with
  | some rp => checkedDiv rp.price rp.normHalving
  | none =>
    (firstMin (fun p q => p.assignment.daysSinceHalving < q.assignment.daysSinceHalving)
      cycle.items).map RawPoint.price

/-- The projected points of one cycle, on the anchor and the low it shares with
its real points. -/
def normalizeCycle (realPoints : List OverlayPoint) (cycle : Group ℤ RawPoint) :
    Option (List OverlayPoint) := do
  let cycleAnchorPrice ← cycleAnchor realPoints cycle
  let projectedLow ← (cycle.items.map RawPoint.price).min?
  let realLow :=
    ((realPoints.filter fun p => p.cycleNumber = cycle.key).map OverlayPoint.price).min?
  let cycleLow := realLow.elim projectedLow fun rl => min rl projectedLow
  cycle.items.mapM fun p => do
    let normHalving ← checkedDiv p.price cycleAnchorPrice
    let normCycleLow ← checkedDiv p.price cycleLow
    return {
      cycleNumber := cycle.key
      halvingDate := p.assignment.halvingDate
      daysSinceHalving := p.assignment.daysSinceHalving
      ts := p.ts
      price := p.price
      normHalving := normHalving
      normCycleLow := normCycleLow
      halvingBaselineApproximate := true
      projected := true
      priceLow := p.priceLow
      priceHigh := p.priceHigh }

/-- The end both projections share: group the days by cycle and normalize them. -/
def normalizeProjection (realPoints : List OverlayPoint) (raw : List RawPoint) :
    Option (List OverlayPoint) := do
  let cycles ← (groupBy (fun p => p.assignment.cycleNumber) raw).mapM (normalizeCycle realPoints)
  return cycles.flatten

/-- The offsets `1..=CYCLE_DAYS` of the projected days. -/
def horizon : List ℤ := (List.range cycleLengthDays).map fun k : ℕ => (k : ℤ) + 1

/-- The offsets with a close to replay, and that close. -/
def replayRefs (series : List DailyClose) (baseDate : ℤ) : List (ℤ × ℚ) :=
  horizon.filterMap fun k => (priceAtOrBefore series (baseDate + k)).map fun p => (k, p)

/-- The day `k` days after `today` of the replay. -/
def replayDay (today : DailyClose) (basePrice : ℚ) (k : ℤ) (refPrice : ℚ) : Option RawPoint := do
  let ts := today.date + k
  let price ← checkedDiv (today.close * refPrice) basePrice
  return ⟨ts, price, none, none, assignCycleIn ts projectedHalvingDates⟩

def projectCycleRepeat (daily : List DailyClose) (realPoints : List OverlayPoint) :
    Option (List OverlayPoint) := do
  let series := collectSeries daily
  let some today := series.getLast? | return []
  let some earliest := series.head? | return []
  let baseDate := today.date - cycleLengthDays
  if baseDate < earliest.date then
    return []
  let some basePrice := priceAtOrBefore series baseDate | return []
  let raw ← (replayRefs series baseDate).mapM fun (k, refPrice) =>
    replayDay today basePrice k refPrice
  normalizeProjection realPoints raw

end CryptoCollector.Collectors

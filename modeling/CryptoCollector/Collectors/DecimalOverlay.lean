import CryptoCollector.Collectors.CycleOverlay
import CryptoCollector.Foundations.Dividing

/-!
# The overlay in decimal arithmetic

The overlay and the replay with the rounding and the range of `Decimal`, whose
operations are a parameter, and with the divisors they divide by.
-/

namespace CryptoCollector.Collectors
open Foundations

/-- The checked operations of `Decimal`: none where the result does not fit, and for a
division by zero. The operators panic there. What is a decimal is divided by itself and
by one without rounding. -/
structure DecimalArith where
  IsDecimal : ℚ → Prop
  checkedAdd : ℚ → ℚ → Option ℚ
  checkedSub : ℚ → ℚ → Option ℚ
  checkedMul : ℚ → ℚ → Option ℚ
  checkedDiv : ℚ → ℚ → Option ℚ
  checkedDiv_zero : ∀ x, checkedDiv x 0 = none
  checkedDiv_self : ∀ x, IsDecimal x → x ≠ 0 → checkedDiv x x = some 1
  checkedDiv_one : ∀ x, IsDecimal x → checkedDiv x 1 = some x

namespace DecimalArith

variable (arith : DecimalArith)

def add (x y : ℚ) : Dividing ℚ ℚ := .lift (arith.checkedAdd x y)

def sub (x y : ℚ) : Dividing ℚ ℚ := .lift (arith.checkedSub x y)

def mul (x y : ℚ) : Dividing ℚ ℚ := .lift (arith.checkedMul x y)

def div (x y : ℚ) : Dividing ℚ ℚ := .divide arith.checkedDiv x y

def overlayCycle (cycle : Group ℤ CycleDay) : Dividing ℚ (List OverlayPoint) := do
  let points := sortBy (fun p => p.assignment.daysSinceHalving) cycle.items
  let first ← Dividing.lift points.head?
  let cycleLow ← Dividing.lift (points.map CycleDay.price).min?
  points.mapM fun p => do
    let normHalving ← arith.div p.price first.price
    let normCycleLow ← arith.div p.price cycleLow
    return {
      cycleNumber := cycle.key
      halvingDate := cycle.first.assignment.halvingDate
      daysSinceHalving := p.assignment.daysSinceHalving
      ts := p.date
      price := p.price
      normHalving := normHalving
      normCycleLow := normCycleLow
      halvingBaselineApproximate := decide (first.assignment.daysSinceHalving ≠ 0)
      projected := false
      priceLow := none
      priceHigh := none }

def computeOverlay (daily : List DailyClose) : Dividing ℚ (List OverlayPoint) := do
  let cycles ← (groupBy (fun p => p.assignment.cycleNumber) (cycleDays daily)).mapM
    arith.overlayCycle
  return cycles.flatten

def cycleAnchor (realPoints : List OverlayPoint) (cycle : Group ℤ RawPoint) : Dividing ℚ ℚ :=
  match realPoints.find? fun p => p.cycleNumber = cycle.key with
  | some rp => arith.div rp.price rp.normHalving
  | none =>
    .lift ((firstMin (fun p q => p.assignment.daysSinceHalving < q.assignment.daysSinceHalving)
      cycle.items).map RawPoint.price)

def normalizeCycle (realPoints : List OverlayPoint) (cycle : Group ℤ RawPoint) :
    Dividing ℚ (List OverlayPoint) := do
  let cycleAnchorPrice ← arith.cycleAnchor realPoints cycle
  let projectedLow ← Dividing.lift (cycle.items.map RawPoint.price).min?
  let realLow :=
    ((realPoints.filter fun p => p.cycleNumber = cycle.key).map OverlayPoint.price).min?
  let cycleLow := realLow.elim projectedLow fun rl => min rl projectedLow
  cycle.items.mapM fun p => do
    let normHalving ← arith.div p.price cycleAnchorPrice
    let normCycleLow ← arith.div p.price cycleLow
    return {
      cycleNumber := cycle.key
      halvingDate := p.assignment.halvingDate
      daysSinceHalving := p.assignment.daysSinceHalving
      ts := p.ts
      price := p.price
      normHalving := normHalving
      normCycleLow := normCycleLow
      halvingBaselineApproximate := true
      projected := true
      priceLow := p.priceLow
      priceHigh := p.priceHigh }

def normalizeProjection (realPoints : List OverlayPoint) (raw : List RawPoint) :
    Dividing ℚ (List OverlayPoint) := do
  let cycles ← (groupBy (fun p => p.assignment.cycleNumber) raw).mapM
    (arith.normalizeCycle realPoints)
  return cycles.flatten

def replayDay (today : DailyClose) (basePrice : ℚ) (k : ℤ) (refPrice : ℚ) :
    Dividing ℚ RawPoint := do
  let ts := today.date + k
  let scaled ← arith.mul today.close refPrice
  let price ← arith.div scaled basePrice
  return ⟨ts, price, none, none, assignCycleIn ts projectedHalvingDates⟩

/-- The days of `project_cycle_repeat` before they are normalized; none where there is
not enough history. -/
def replayPath (daily : List DailyClose) : Dividing ℚ (List RawPoint) :=
  let series := collectSeries daily
  match series.getLast?, series.head? with
  | some today, some earliest =>
    let baseDate := today.date - cycleLengthDays
    if baseDate < earliest.date then
      return []
    else
      match priceAtOrBefore series baseDate with
      | some basePrice =>
        (replayRefs series baseDate).mapM fun ref => arith.replayDay today basePrice ref.1 ref.2
      | none => return []
  | _, _ => return []

def projectCycleRepeat (daily : List DailyClose) (realPoints : List OverlayPoint) :
    Dividing ℚ (List OverlayPoint) := do
  let raw ← arith.replayPath daily
  arith.normalizeProjection realPoints raw

@[simp] theorem safe_add (x y : ℚ) : (arith.add x y).Safe := Dividing.safe_lift _

@[simp] theorem safe_sub (x y : ℚ) : (arith.sub x y).Safe := Dividing.safe_lift _

@[simp] theorem safe_mul (x y : ℚ) : (arith.mul x y).Safe := Dividing.safe_lift _

@[simp] theorem safe_div_iff {x y : ℚ} : (arith.div x y).Safe ↔ y ≠ 0 := Dividing.safe_divide_iff

@[simp] theorem result_div (x y : ℚ) : (arith.div x y).result = arith.checkedDiv x y := rfl

@[simp] theorem result_mul (x y : ℚ) : (arith.mul x y).result = arith.checkedMul x y := rfl

end DecimalArith

def pricesOf (cycle : Group ℤ CycleDay) : List ℚ :=
  (sortBy (fun p => p.assignment.daysSinceHalving) cycle.items).map CycleDay.price

/-- The cycles of the series, with their closes. -/
def cycleCloses (daily : List DailyClose) : List (ℤ × List ℚ) :=
  (groupBy (fun p => p.assignment.cycleNumber) (cycleDays daily)).map fun cycle =>
    (cycle.key, pricesOf cycle)

def closesOf (daily : List DailyClose) (n : ℤ) : List ℚ :=
  ((cycleCloses daily).filter fun cycle => cycle.1 = n).flatMap Prod.snd

/-- The price a projected cycle is anchored on: the first close of the cycle, where it
has begun, else the first projected price. -/
def anchorOf (daily : List DailyClose) (cycle : Group ℤ RawPoint) : Option ℚ :=
  (closesOf daily cycle.key).head?.or
    ((firstMin (fun p q => p.assignment.daysSinceHalving < q.assignment.daysSinceHalving)
      cycle.items).map RawPoint.price)

/-- The least close or projected price of a cycle. -/
def lowOf (daily : List DailyClose) (cycle : Group ℤ RawPoint) : Option ℚ :=
  (closesOf daily cycle.key ++ cycle.items.map RawPoint.price).min?

namespace DecimalArith

variable (arith : DecimalArith)

/-- The quotients of some prices by an anchor and a low exist. -/
def Fits (prices : List ℚ) (anchor low : Option ℚ) : Prop :=
  ∀ a ∈ anchor, ∀ l ∈ low, ∀ price ∈ prices,
    arith.checkedDiv price a ≠ none ∧ arith.checkedDiv price l ≠ none

/-- Each cycle, when those before it fit, begins with a close other than zero and has
none as its least. -/
def OverlayCondition (daily : List DailyClose) : Prop :=
  ∀ pre cycle post, cycleCloses daily = pre ++ cycle :: post →
    (∀ c ∈ pre, arith.Fits c.2 c.2.head? c.2.min?) →
      ∀ first ∈ cycle.2.head?, ∀ low ∈ cycle.2.min?, first ≠ 0 ∧ low ≠ 0

/-- Each projected cycle, when those before it fit, has an anchor other than zero; so it
has a low, when its first price can be divided by the anchor. -/
def ProjectionCondition (daily : List DailyClose) (raw : List RawPoint) : Prop :=
  ∀ pre cycle post, groupBy (fun p => p.assignment.cycleNumber) raw = pre ++ cycle :: post →
    (∀ c ∈ pre, arith.Fits (c.items.map RawPoint.price) (anchorOf daily c) (lowOf daily c)) →
      ∀ anchor ∈ anchorOf daily cycle, ∀ low ∈ lowOf daily cycle,
        anchor ≠ 0 ∧ (arith.checkedDiv cycle.first.price anchor ≠ none → low ≠ 0)

/-- The price the replay starts from is not zero, where its first day can be scaled. -/
def BaseCondition (daily : List DailyClose) : Prop :=
  ∀ today ∈ (collectSeries daily).getLast?, ∀ earliest ∈ (collectSeries daily).head?,
    earliest.date ≤ today.date - cycleLengthDays →
      ∀ base ∈ priceAtOrBefore (collectSeries daily) (today.date - cycleLengthDays),
        ∀ ref ∈ (replayRefs (collectSeries daily) (today.date - cycleLengthDays)).head?,
          arith.checkedMul today.close ref.2 ≠ none → base ≠ 0

end DecimalArith
end CryptoCollector.Collectors

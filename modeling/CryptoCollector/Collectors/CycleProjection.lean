import CryptoCollector.Collectors.CycleOverlay

/-!
# The composite projection

A power law fitted to the closes, a cycle component by phase and a decaying
deviation carry the last close forward, with bands from the errors of the fit.
The transcendental functions of `Decimal` are a parameter; where one panics, or
a division by zero does, the result is `none`.
-/

namespace CryptoCollector.Collectors
open Foundations

/-- `MathematicalOps` of the decimal library. -/
structure DecimalMath where
  log10 : ℚ → Option ℚ
  ln : ℚ → Option ℚ
  exp : ℚ → Option ℚ
  powd : ℚ → ℚ → Option ℚ
  powi : ℚ → ℤ → Option ℚ

def genesis : ℤ := NaiveDate.fromYmd 2009 1 3

def halfLifeDays : ℚ := 180

def shrink : ℚ := 3 / 4

/-- `NBINS`: phase bins of a halving cycle. -/
def nbins : ℕ := 12

def minCycleObs : ℕ := 180

def ampFloor : ℚ := 1 / 20

def bandGridStep : ℕ := 30

def minBandSamples : ℕ := 100

def assumedCycleLen : ℤ := 1461

def calibrationAnchors : List DailyClose :=
  [⟨NaiveDate.fromYmd 2011 8 18, 1090 / 100⟩,
    ⟨NaiveDate.fromYmd 2011 11 17, 299 / 100⟩,
    ⟨NaiveDate.fromYmd 2012 2 16, 451 / 100⟩,
    ⟨NaiveDate.fromYmd 2012 5 17, 502 / 100⟩,
    ⟨NaiveDate.fromYmd 2012 8 16, 1342 / 100⟩,
    ⟨NaiveDate.fromYmd 2012 11 15, 1105 / 100⟩,
    ⟨NaiveDate.fromYmd 2013 2 14, 2740 / 100⟩,
    ⟨NaiveDate.fromYmd 2013 5 16, 11335 / 100⟩,
    ⟨NaiveDate.fromYmd 2013 8 15, 9808 / 100⟩,
    ⟨NaiveDate.fromYmd 2013 11 14, 41695 / 100⟩,
    ⟨NaiveDate.fromYmd 2014 2 13, 60411 / 100⟩,
    ⟨NaiveDate.fromYmd 2014 5 15, 44600 / 100⟩,
    ⟨NaiveDate.fromYmd 2014 8 14, 50799 / 100⟩,
    ⟨NaiveDate.fromYmd 2014 11 13, 42093 / 100⟩,
    ⟨NaiveDate.fromYmd 2015 2 12, 22300 / 100⟩,
    ⟨NaiveDate.fromYmd 2015 5 14, 23713 / 100⟩,
    ⟨NaiveDate.fromYmd 2015 8 13, 26448 / 100⟩,
    ⟨NaiveDate.fromYmd 2015 11 12, 33717 / 100⟩,
    ⟨NaiveDate.fromYmd 2016 2 11, 37798 / 100⟩,
    ⟨NaiveDate.fromYmd 2016 5 12, 45520 / 100⟩,
    ⟨NaiveDate.fromYmd 2016 8 11, 58522 / 100⟩,
    ⟨NaiveDate.fromYmd 2016 11 10, 71447 / 100⟩,
    ⟨NaiveDate.fromYmd 2017 2 9, 98600 / 100⟩,
    ⟨NaiveDate.fromYmd 2017 5 11, 182845 / 100⟩,
    ⟨NaiveDate.fromYmd 2017 8 10, 341303 / 100⟩]

def anchorWeight : ℚ := 91

/-- `pow10`: `exp(x · ln 10)`. -/
def pow10 (math : DecimalMath) (x : ℚ) : Option ℚ := do
  let ln10 ← math.ln 10
  math.exp (x * ln10)

/-- A sample `(x, y, w)` of a weighted fit. -/
structure FitSample where
  x : ℚ
  y : ℚ
  w : ℚ
  deriving DecidableEq, Repr

/-- `weighted_ols`: intercept and slope, none for a degenerate input. -/
def weightedOls (samples : List FitSample) : Option (ℚ × ℚ) :=
  let wSum := (samples.map FitSample.w).sum
  if wSum ≤ 0 then none else
  let mx := (samples.map fun s => s.x * s.w).sum / wSum
  let my := (samples.map fun s => s.y * s.w).sum / wSum
  let sxx := (samples.map fun s => s.w * (s.x - mx) * (s.x - mx)).sum
  if sxx ≤ 0 then none else
  let sxy := (samples.map fun s => s.w * (s.x - mx) * (s.y - my)).sum
  let b := sxy / sxx
  some (my - b * mx, b)

/-- `quantile` of an ascending list, none outside its bounds. -/
def quantile (sorted : List ℚ) (q : ℚ) : Option ℚ := do
  let n := sorted.length
  if n = 1 then
    return ← sorted[0]?
  let pos := q * ((n : ℚ) - 1)
  let frac := pos - ⌊pos⌋
  let i := min ⌊pos⌋.toNat (n - 1)
  let j := min (i + 1) (n - 1)
  let low ← sorted[i]?
  let high ← sorted[j]?
  return low + frac * (high - low)

/-- `phase_of`: the index of the cycle of a date and the part of it gone by. -/
def phaseOf (date : ℤ) (halvings : List ℤ) : Option (ℕ × ℚ) :=
  if date < halvings.getD 0 0 then none else
  let idx := halvingIndex date halvings
  let start := halvings.getD idx 0
  let len := if idx + 1 < halvings.length then halvings.getD (idx + 1) 0 - start
    else assumedCycleLen
  some (idx, min (((date - start : ℤ) : ℚ) / (len : ℚ)) (9999 / 10000))

/-- The value a `BTreeMap` keeps under a key. -/
def getKey {α : Type} (entries : List (ℕ × α)) (k : ℕ) : Option α :=
  (entries.find? fun e => e.1 = k).map Prod.snd

/-- `clamp(0, NBINS - 1)` of a bin index. -/
def clampBin (i : ℤ) : ℕ := min i.toNat (nbins - 1)

/-- `interp_bins`: between the two bins around a phase. -/
def interpBins (curve : List (ℕ × ℚ)) (phase : ℚ) : Option ℚ :=
  let x := phase * nbins - 1 / 2
  let lo := clampBin ⌊x⌋
  let hi := clampBin (⌊x⌋ + 1)
  match getKey curve lo, getKey curve hi with
  | none, none => none
  | some v, none => some v
  | none, some v => some v
  | some lv, some hv =>
    if lo = hi then some lv
    else some (lv + max 0 (min (x - ⌊x⌋) 1) * (hv - lv))

structure FittedModel where
  spineA : ℚ
  spineB : ℚ
  curves : List (ℕ × List (ℕ × ℚ))
  amps : List (ℕ × ℚ)
  halvings : List ℤ
  rho : ℚ
  deriving DecidableEq, Repr

/-- `Decimal::from((date - genesis()).num_days()).log10()`. -/
def logDays (math : DecimalMath) (date : ℤ) : Option ℚ := math.log10 ((date - genesis : ℤ) : ℚ)

namespace FittedModel

def spine (math : DecimalMath) (model : FittedModel) (date : ℤ) : Option ℚ := do
  let days ← logDays math date
  return model.spineA + model.spineB * days

/-- `amps.values().last()`. -/
def lastAmp (model : FittedModel) : ℚ := (model.amps.getLast?.map Prod.snd).getD 0

/-- `amp_target`: the amplitude extrapolated to a cycle. -/
def ampTarget (model : FittedModel) (cycleIdx : ℕ) : ℚ :=
  if model.amps.length < 2 then model.lastAmp else
  match weightedOls (model.amps.map fun (i, a) => ⟨i, a, 1⟩) with
  | some (a0, sl) => max (a0 + sl * cycleIdx) ampFloor
  | none => model.lastAmp

/-- `cycle_component`: the mean of the scaled curves at the phase of a date. -/
def cycleComponent (model : FittedModel) (date : ℤ) : Option ℚ := do
  let some (cycleIdx, phase) := phaseOf date model.halvings | return 0
  if model.curves.isEmpty then
    return 0
  let target := model.ampTarget cycleIdx
  let scaled ← model.curves.mapM fun (c, curve) => do
    let amp ← getKey model.amps c
    let scale := if ampFloor < amp then target / amp else 1
    return (interpBins curve phase).map fun v => scale * v
  let values := scaled.reduceOption
  if values.isEmpty then
    return 0
  return shrink * values.sum / values.length

end FittedModel

structure PhaseResidual where
  cycleIdx : ℕ
  bin : ℕ
  residual : ℚ
  deriving DecidableEq, Repr

/-- The deviation of a day's close from the spine. -/
def spineResidual (math : DecimalMath) (spineA spineB : ℚ) (d : DailyClose) : Option ℚ := do
  let days ← logDays math d.date
  let price ← math.log10 d.close
  return price - (spineA + spineB * days)

/-- The mean deviation of each bin of a cycle. -/
def meanCurve (residuals : List PhaseResidual) : List (ℕ × ℚ) :=
  (groupBy PhaseResidual.bin residuals).map fun bin =>
    (bin.key, (bin.items.map PhaseResidual.residual).sum / bin.items.length)

def fitSample (math : DecimalMath) (w : ℚ) (d : DailyClose) : Option FitSample := do
  let x ← logDays math d.date
  let y ← math.log10 d.close
  return ⟨x, y, w⟩

/-- `fit_model`: outside, a panic; inside, no fit. -/
def fitModel (math : DecimalMath) (daily : List DailyClose) (useBtcAnchors : Bool) :
    Option (Option FittedModel) := do
  let some earliest := daily.head? | return none
  let own ← daily.mapM (fitSample math 1)
  let anchors := if useBtcAnchors then calibrationAnchors.filter fun d => d.date < earliest.date
    else []
  let anchored ← anchors.mapM (fitSample math anchorWeight)
  let some (spineA, spineB) := weightedOls (own ++ anchored) | return none
  let halvings := projectedHalvingDates
  let inCycle := daily.filterMap fun d => (phaseOf d.date halvings).map fun p => (d, p.1, p.2)
  let residuals ← inCycle.mapM fun (d, cycleIdx, phase) => do
    let r ← spineResidual math spineA spineB d
    return PhaseResidual.mk cycleIdx (min ⌊phase * nbins⌋.toNat (nbins - 1)) r
  let observed := (groupBy PhaseResidual.cycleIdx residuals).filter
    fun cycle => minCycleObs ≤ cycle.items.length
  let curves := observed.map fun cycle => (cycle.key, meanCurve cycle.items)
  let amps := curves.map fun (c, curve) => (c, ((curve.map Prod.snd).max?).getD 0)
  let rho ← math.powd (1 / 2) (1 / halfLifeDays)
  return some ⟨spineA, spineB, curves, amps, halvings, rho⟩

/-- `BandGrid`: the offsets of the bands by horizon, ascending. -/
structure BandOffset where
  horizon : ℤ
  lo : ℚ
  hi : ℚ
  deriving DecidableEq, Repr

/-- The pairs of neighbours of the grid. -/
def windows2 (grid : List BandOffset) : List (BandOffset × BandOffset) := grid.zip grid.tail

/-- `offsets_at`: linear from zero to the first horizon and between horizons. -/
def offsetsAt (grid : List BandOffset) (k : ℤ) : Option (ℚ × ℚ) := do
  let some first := grid.head? | return (0, 0)
  if k ≤ first.horizon then
    let t ← checkedDiv k first.horizon
    return (first.lo * t, first.hi * t)
  match (windows2 grid).find? fun w => k ≤ w.2.horizon with
  | some (a, b) => do
    let t ← checkedDiv (k - a.horizon : ℤ) (b.horizon - a.horizon : ℤ)
    return (a.lo + t * (b.lo - a.lo), a.hi + t * (b.hi - a.hi))
  | none => return (((grid.getLast?).map BandOffset.lo).getD 0,
      ((grid.getLast?).map BandOffset.hi).getD 0)

structure DayFit where
  date : ℤ
  residual : ℚ
  component : ℚ
  deriving DecidableEq, Repr

/-- The horizons of the grid: each step, and the whole cycle. -/
def bandHorizons : List ℤ :=
  let steps := (List.range (cycleLengthDays / bandGridStep)).map
    fun i : ℕ => ((i : ℤ) + 1) * bandGridStep
  if (steps.getLast?).getD 0 ≠ cycleLengthDays then steps ++ [(cycleLengthDays : ℤ)] else steps

/-- The offsets at the horizon `k`, none where there are too few pairs of days. -/
def bandOffset (math : DecimalMath) (model : FittedModel) (fits : List DayFit) (k : ℤ) :
    Option (Option BandOffset) := do
  let rhoK ← math.powi model.rho k
  let pairs := fits.filterMap fun d =>
    (fits.find? fun d2 => d2.date = d.date + k).map fun d2 => (d, d2)
  let modelErr := sortBy id (pairs.map fun (d, d2) =>
    d2.residual - (d2.component + (d.residual - d.component) * rhoK))
  let residChange := sortBy id (pairs.map fun (d, d2) => d2.residual - d.residual)
  if modelErr.length < minBandSamples then
    return none
  let me10 ← quantile modelErr (1 / 10)
  let me50 ← quantile modelErr (1 / 2)
  let me90 ← quantile modelErr (9 / 10)
  let rc10 ← quantile residChange (1 / 10)
  let rc50 ← quantile residChange (1 / 2)
  let rc90 ← quantile residChange (9 / 10)
  return some ⟨k, ((me10 - me50) + (rc10 - rc50)) / 2, ((me90 - me50) + (rc90 - rc50)) / 2⟩

def buildBandGrid (math : DecimalMath) (model : FittedModel) (daily : List DailyClose) :
    Option (List BandOffset) := do
  let fits ← daily.mapM fun d => do
    let r ← spineResidual math model.spineA model.spineB d
    let c ← model.cycleComponent d.date
    return DayFit.mk d.date r c
  let offsets ← bandHorizons.mapM (bandOffset math model fits)
  return offsets.reduceOption

/-- The day `k` days after `today` of the composite path. -/
def compositeDay (math : DecimalMath) (model : FittedModel) (grid : List BandOffset) (today : ℤ)
    (g0 : ℚ) (k : ℤ) : Option RawPoint := do
  let ts := today + k
  let spine ← model.spine math ts
  let component ← model.cycleComponent ts
  let center := spine + component + g0 * model.rho ^ k.toNat
  let (loOff, hiOff) ← offsetsAt grid k
  let p50 ← pow10 math center
  let p10 ← pow10 math (center + loOff)
  let p90 ← pow10 math (center + hiOff)
  return ⟨ts, p50, some p10, some p90, assignCycleIn ts model.halvings⟩

def projectComposite (math : DecimalMath) (daily : List DailyClose)
    (realPoints : List OverlayPoint) (useBtcAnchors : Bool) : Option (List OverlayPoint) := do
  let series := collectSeries daily
  let some today := series.getLast? | return []
  let some earliest := series.head? | return []
  if today.close ≤ 0 then
    return []
  if today.date - earliest.date < cycleLengthDays then
    return []
  let fitSeries := series.filter fun d => 0 < d.close
  let some model ← fitModel math fitSeries useBtcAnchors | return []
  let bands ← buildBandGrid math model fitSeries
  let rToday ← spineResidual math model.spineA model.spineB today
  let component ← model.cycleComponent today.date
  let raw ← horizon.mapM (compositeDay math model bands today.date (rToday - component))
  normalizeProjection realPoints raw

end CryptoCollector.Collectors

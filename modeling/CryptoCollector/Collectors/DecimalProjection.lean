import CryptoCollector.Collectors.DecimalOverlay
import CryptoCollector.Collectors.CycleProjection
import Mathlib.Data.List.ReduceOption

/-!
# The composite projection in decimal arithmetic

The fit, the cycle component, the bands and the path of the composite projection, with
the rounding and the range of `Decimal` and with the divisors they divide by. All these
divisions are guarded or by constants.
-/

namespace CryptoCollector.Collectors
open Foundations

namespace DecimalArith

variable (arith : DecimalArith) (math : DecimalMath)

/-- `iter().sum()`. -/
def sum (xs : List ℚ) : Dividing ℚ ℚ := xs.foldlM arith.add 0

def pow10 (x : ℚ) : Dividing ℚ ℚ := do
  let ln10 ← Dividing.lift (math.ln 10)
  let y ← arith.mul x ln10
  Dividing.lift (math.exp y)

def weightedOls (samples : List FitSample) : Dividing ℚ (Option (ℚ × ℚ)) := do
  let wSum ← arith.sum (samples.map FitSample.w)
  if wSum ≤ 0 then
    return none
  else do
    let xw ← samples.mapM fun s => arith.mul s.x s.w
    let xSum ← arith.sum xw
    let mx ← arith.div xSum wSum
    let yw ← samples.mapM fun s => arith.mul s.y s.w
    let ySum ← arith.sum yw
    let my ← arith.div ySum wSum
    let squares ← samples.mapM fun s => do
      let dx ← arith.sub s.x mx
      let wdx ← arith.mul s.w dx
      arith.mul wdx dx
    let sxx ← arith.sum squares
    if sxx ≤ 0 then
      return none
    else do
      let products ← samples.mapM fun s => do
        let dx ← arith.sub s.x mx
        let dy ← arith.sub s.y my
        let wdx ← arith.mul s.w dx
        arith.mul wdx dy
      let sxy ← arith.sum products
      let b ← arith.div sxy sxx
      let bmx ← arith.mul b mx
      let a ← arith.sub my bmx
      return some (a, b)

def quantile (sorted : List ℚ) (q : ℚ) : Dividing ℚ ℚ :=
  let n := sorted.length
  if n = 1 then
    Dividing.lift sorted[0]?
  else do
    let pos ← arith.mul q ((n : ℚ) - 1)
    let frac ← arith.sub pos ⌊pos⌋
    let i := min ⌊pos⌋.toNat (n - 1)
    let j := min (i + 1) (n - 1)
    let low ← Dividing.lift sorted[i]?
    let high ← Dividing.lift sorted[j]?
    let span ← arith.sub high low
    let part ← arith.mul frac span
    arith.add low part

/-- The days of a cycle of the halving list; the last one is assumed to be as long. -/
def cycleDaysIn (halvings : List ℤ) (idx : ℕ) : ℤ :=
  if idx + 1 < halvings.length then halvings.getD (idx + 1) 0 - halvings.getD idx 0
  else assumedCycleLen

def phaseOf (date : ℤ) (halvings : List ℤ) : Dividing ℚ (Option (ℕ × ℚ)) :=
  if date < halvings.getD 0 0 then
    return none
  else do
    let idx := halvingIndex date halvings
    let phase ← arith.div ((date - halvings.getD idx 0 : ℤ) : ℚ) (cycleDaysIn halvings idx)
    return some (idx, min phase (9999 / 10000))

def interpBins (curve : List (ℕ × ℚ)) (phase : ℚ) : Dividing ℚ (Option ℚ) := do
  let scaled ← arith.mul phase nbins
  let x ← arith.sub scaled (1 / 2)
  let lo := clampBin ⌊x⌋
  let hi := clampBin (⌊x⌋ + 1)
  match getKey curve lo, getKey curve hi with
  | none, none => return none
  | some v, none => return some v
  | none, some v => return some v
  | some lv, some hv =>
    if lo = hi then
      return some lv
    else do
      let frac ← arith.sub x ⌊x⌋
      let span ← arith.sub hv lv
      let part ← arith.mul (max 0 (min frac 1)) span
      let v ← arith.add lv part
      return some v

def spine (model : FittedModel) (date : ℤ) : Dividing ℚ ℚ := do
  let days ← Dividing.lift (logDays math date)
  let scaled ← arith.mul model.spineB days
  arith.add model.spineA scaled

def ampTarget (model : FittedModel) (cycleIdx : ℕ) : Dividing ℚ ℚ :=
  if model.amps.length < 2 then
    return model.lastAmp
  else do
    let fit ← arith.weightedOls (model.amps.map fun (i, a) => ⟨i, a, 1⟩)
    match fit with
    | some (a0, sl) => do
      let slope ← arith.mul sl cycleIdx
      let target ← arith.add a0 slope
      return max target ampFloor
    | none => return model.lastAmp

/-- The scale that brings a curve's amplitude to the target. -/
def curveScale (target amp : ℚ) : Dividing ℚ ℚ :=
  if ampFloor < amp then arith.div target amp else return 1

/-- The step of `cycle_component` over one curve, on the sum and the count so far. -/
def addCurve (model : FittedModel) (target phase : ℚ) (sums : ℚ × ℚ)
    (entry : ℕ × List (ℕ × ℚ)) : Dividing ℚ (ℚ × ℚ) := do
  let amp ← Dividing.lift (getKey model.amps entry.1)
  let scale ← arith.curveScale target amp
  let value ← arith.interpBins entry.2 phase
  match value with
  | some v => do
    let scaled ← arith.mul scale v
    let num ← arith.add sums.1 scaled
    let den ← arith.add sums.2 1
    return (num, den)
  | none => return sums

def cycleComponent (model : FittedModel) (date : ℤ) : Dividing ℚ ℚ := do
  let position ← arith.phaseOf date model.halvings
  match position with
  | none => return 0
  | some (cycleIdx, phase) =>
    if model.curves.isEmpty then
      return 0
    else do
      let target ← arith.ampTarget model cycleIdx
      let sums ← model.curves.foldlM (arith.addCurve model target phase) (0, 0)
      if sums.2 = 0 then
        return 0
      else do
        let scaled ← arith.mul shrink sums.1
        arith.div scaled sums.2

def spineResidual (spineA spineB : ℚ) (d : DailyClose) : Dividing ℚ ℚ := do
  let days ← Dividing.lift (logDays math d.date)
  let price ← Dividing.lift (math.log10 d.close)
  let scaled ← arith.mul spineB days
  let level ← arith.add spineA scaled
  arith.sub price level

/-- The deviation of a day in its cycle and bin; none before the first halving. -/
def phaseResidual (spineA spineB : ℚ) (d : DailyClose) : Dividing ℚ (Option PhaseResidual) := do
  let position ← arith.phaseOf d.date projectedHalvingDates
  match position with
  | none => return none
  | some (cycleIdx, phase) => do
    let r ← arith.spineResidual math spineA spineB d
    let scaled ← arith.mul phase nbins
    return some ⟨cycleIdx, min ⌊scaled⌋.toNat (nbins - 1), r⟩

def meanCurve (residuals : List PhaseResidual) : Dividing ℚ (List (ℕ × ℚ)) :=
  (groupBy PhaseResidual.bin residuals).mapM fun bin => do
    let total ← arith.sum (bin.items.map PhaseResidual.residual)
    let mean ← arith.div total bin.items.length
    return (bin.key, mean)

def fitModel (daily : List DailyClose) (useBtcAnchors : Bool) :
    Dividing ℚ (Option FittedModel) :=
  match daily.head? with
  | none => return none
  | some earliest => do
    let own ← Dividing.lift (daily.mapM (fitSample math 1))
    let anchors := if useBtcAnchors then calibrationAnchors.filter fun d => d.date < earliest.date
      else []
    let anchored ← Dividing.lift (anchors.mapM (fitSample math anchorWeight))
    let fit ← arith.weightedOls (own ++ anchored)
    match fit with
    | none => return none
    | some (spineA, spineB) => do
      let residuals ← daily.mapM (arith.phaseResidual math spineA spineB)
      let observed := (groupBy PhaseResidual.cycleIdx residuals.reduceOption).filter
        fun cycle => minCycleObs ≤ cycle.items.length
      let curves ← observed.mapM fun cycle => do
        let curve ← arith.meanCurve cycle.items
        return (cycle.key, curve)
      let amps := curves.map fun (c, curve) => (c, ((curve.map Prod.snd).max?).getD 0)
      let exponent ← arith.div 1 halfLifeDays
      let rho ← Dividing.lift (math.powd (1 / 2) exponent)
      return some ⟨spineA, spineB, curves, amps, projectedHalvingDates, rho⟩

def offsetsAt (grid : List BandOffset) (k : ℤ) : Dividing ℚ (ℚ × ℚ) :=
  match grid.head? with
  | none => return (0, 0)
  | some first =>
    if k ≤ first.horizon then do
      let t ← arith.div k first.horizon
      let lo ← arith.mul first.lo t
      let hi ← arith.mul first.hi t
      return (lo, hi)
    else
      match (windows2 grid).find? fun w => k ≤ w.2.horizon with
      | some (a, b) => do
        let t ← arith.div (k - a.horizon : ℤ) (b.horizon - a.horizon : ℤ)
        let loSpan ← arith.sub b.lo a.lo
        let loPart ← arith.mul t loSpan
        let lo ← arith.add a.lo loPart
        let hiSpan ← arith.sub b.hi a.hi
        let hiPart ← arith.mul t hiSpan
        let hi ← arith.add a.hi hiPart
        return (lo, hi)
      | none => return (((grid.getLast?).map BandOffset.lo).getD 0,
          ((grid.getLast?).map BandOffset.hi).getD 0)

/-- The midpoint of two deviations of quantiles from their medians. -/
def blend (m₁ m₁' m₂ m₂' : ℚ) : Dividing ℚ ℚ := do
  let d₁ ← arith.sub m₁ m₁'
  let d₂ ← arith.sub m₂ m₂'
  let total ← arith.add d₁ d₂
  arith.div total 2

/-- The error of the fit at the second of two days, from the deviation of the first. -/
def bandError (rhoK : ℚ) (pair : DayFit × DayFit) : Dividing ℚ ℚ := do
  let gap ← arith.sub pair.1.residual pair.1.component
  let decayed ← arith.mul gap rhoK
  let pred ← arith.add pair.2.component decayed
  arith.sub pair.2.residual pred

def bandOffset (model : FittedModel) (fits : List DayFit) (k : ℤ) :
    Dividing ℚ (Option BandOffset) := do
  let rhoK ← Dividing.lift (math.powi model.rho k)
  let pairs := fits.filterMap fun d =>
    (fits.find? fun d2 => d2.date = d.date + k).map fun d2 => (d, d2)
  let errors ← pairs.mapM (arith.bandError rhoK)
  let changes ← pairs.mapM fun pair => arith.sub pair.2.residual pair.1.residual
  if errors.length < minBandSamples then
    return none
  else do
    let modelErr := sortBy id errors
    let residChange := sortBy id changes
    let me10 ← arith.quantile modelErr (1 / 10)
    let me50 ← arith.quantile modelErr (1 / 2)
    let me90 ← arith.quantile modelErr (9 / 10)
    let rc10 ← arith.quantile residChange (1 / 10)
    let rc50 ← arith.quantile residChange (1 / 2)
    let rc90 ← arith.quantile residChange (9 / 10)
    let lo ← arith.blend me10 me50 rc10 rc50
    let hi ← arith.blend me90 me50 rc90 rc50
    return some ⟨k, lo, hi⟩

def buildBandGrid (model : FittedModel) (daily : List DailyClose) :
    Dividing ℚ (List BandOffset) := do
  let fits ← daily.mapM fun d => do
    let r ← arith.spineResidual math model.spineA model.spineB d
    let c ← arith.cycleComponent model d.date
    return DayFit.mk d.date r c
  let offsets ← bandHorizons.mapM (arith.bandOffset math model fits)
  return offsets.reduceOption

def compositeDay (model : FittedModel) (grid : List BandOffset) (today : ℤ) (g0 rhoK : ℚ)
    (k : ℤ) : Dividing ℚ RawPoint := do
  let ts := today + k
  let level ← arith.spine math model ts
  let component ← arith.cycleComponent model ts
  let path ← arith.add level component
  let decayed ← arith.mul g0 rhoK
  let center ← arith.add path decayed
  let offsets ← arith.offsetsAt grid k
  let low ← arith.add center offsets.1
  let high ← arith.add center offsets.2
  let p50 ← arith.pow10 math center
  let p10 ← arith.pow10 math low
  let p90 ← arith.pow10 math high
  return ⟨ts, p50, some p10, some p90, assignCycleIn ts model.halvings⟩

/-- The loop over the horizon, on the decay so far. -/
def compositeDays (model : FittedModel) (grid : List BandOffset) (today : ℤ) (g0 : ℚ) :
    ℚ → List ℤ → Dividing ℚ (List RawPoint)
  | _, [] => return []
  | rhoK, k :: ks => do
    let next ← arith.mul rhoK model.rho
    let day ← arith.compositeDay math model grid today g0 next k
    let days ← compositeDays model grid today g0 next ks
    return day :: days

/-- The days of `project_composite` before they are normalized; none where it returns no
points. -/
def compositePath (daily : List DailyClose) (useBtcAnchors : Bool) :
    Dividing ℚ (List RawPoint) :=
  let series := collectSeries daily
  match series.getLast?, series.head? with
  | some today, some earliest =>
    if today.close ≤ 0 then
      return []
    else if today.date - earliest.date < cycleLengthDays then
      return []
    else do
      let fitSeries := series.filter fun d => 0 < d.close
      let fit ← arith.fitModel math fitSeries useBtcAnchors
      match fit with
      | none => return []
      | some model => do
        let bands ← arith.buildBandGrid math model fitSeries
        let rToday ← arith.spineResidual math model.spineA model.spineB today
        let component ← arith.cycleComponent model today.date
        let g0 ← arith.sub rToday component
        arith.compositeDays math model bands today.date g0 1 horizon
  | _, _ => return []

def projectComposite (daily : List DailyClose) (realPoints : List OverlayPoint)
    (useBtcAnchors : Bool) : Dividing ℚ (List OverlayPoint) := do
  let raw ← arith.compositePath math daily useBtcAnchors
  arith.normalizeProjection realPoints raw

section Safety

variable {arith math} {model : FittedModel}

@[simp] theorem safe_sum (xs : List ℚ) : (arith.sum xs).Safe :=
  Dividing.safe_foldlM (fun x y => arith.safe_add x y) 0

@[simp] theorem safe_pow10 (x : ℚ) : (arith.pow10 math x).Safe := by
  simp [pow10, Dividing.safe_bind_iff]

@[simp] theorem safe_weightedOls (samples : List FitSample) :
    (arith.weightedOls samples).Safe := by
  have hmul : ∀ f g : FitSample → ℚ, (samples.mapM fun s => arith.mul (f s) (g s)).Safe :=
    fun f g => Dividing.safe_mapM fun s _ => arith.safe_mul _ _
  unfold weightedOls
  apply Dividing.safe_bind (safe_sum _)
  intro wSum
  split_ifs with hw
  · exact Dividing.safe_pure _
  apply Dividing.safe_bind (hmul _ _)
  intro xw
  apply Dividing.safe_bind (safe_sum _)
  intro xSum
  apply Dividing.safe_bind (arith.safe_div_iff.mpr (not_le.mp hw).ne')
  intro mx
  apply Dividing.safe_bind (hmul _ _)
  intro yw
  apply Dividing.safe_bind (safe_sum _)
  intro ySum
  apply Dividing.safe_bind (arith.safe_div_iff.mpr (not_le.mp hw).ne')
  intro my
  apply Dividing.safe_bind
  · exact Dividing.safe_mapM fun s _ => by simp [Dividing.safe_bind_iff]
  intro squares
  apply Dividing.safe_bind (safe_sum _)
  intro sxx
  split_ifs with hx
  · exact Dividing.safe_pure _
  apply Dividing.safe_bind
  · exact Dividing.safe_mapM fun s _ => by simp [Dividing.safe_bind_iff]
  intro products
  apply Dividing.safe_bind (safe_sum _)
  intro sxy
  apply Dividing.safe_bind (arith.safe_div_iff.mpr (not_le.mp hx).ne')
  intro b
  simp [Dividing.safe_bind_iff]

@[simp] theorem safe_quantile (sorted : List ℚ) (q : ℚ) : (arith.quantile sorted q).Safe := by
  unfold quantile
  simp only
  split_ifs
  · exact Dividing.safe_lift _
  · simp [Dividing.safe_bind_iff]

theorem cycleDaysIn_ne_zero (idx : ℕ) : cycleDaysIn projectedHalvingDates idx ≠ 0 := by
  unfold cycleDaysIn
  split_ifs with hnext
  · have hall : ∀ i < projectedHalvingDates.length - 1,
        projectedHalvingDates.getD (i + 1) 0 - projectedHalvingDates.getD i 0 ≠ 0 := by decide
    exact hall idx (by omega)
  · decide

@[simp] theorem safe_phaseOf (date : ℤ) : (arith.phaseOf date projectedHalvingDates).Safe := by
  unfold phaseOf
  split_ifs
  · exact Dividing.safe_pure _
  · apply Dividing.safe_bind
    · rw [safe_div_iff]
      exact_mod_cast cycleDaysIn_ne_zero _
    · intro phase
      exact Dividing.safe_pure _

@[simp] theorem safe_interpBins (curve : List (ℕ × ℚ)) (phase : ℚ) :
    (arith.interpBins curve phase).Safe := by
  unfold interpBins
  apply Dividing.safe_bind (arith.safe_mul _ _)
  intro scaled
  apply Dividing.safe_bind (arith.safe_sub _ _)
  intro x
  simp only
  split
  · exact Dividing.safe_pure _
  · exact Dividing.safe_pure _
  · exact Dividing.safe_pure _
  · split_ifs
    · exact Dividing.safe_pure _
    · simp [Dividing.safe_bind_iff]

@[simp] theorem safe_spine (date : ℤ) : (arith.spine math model date).Safe := by
  simp [spine, Dividing.safe_bind_iff]

@[simp] theorem safe_ampTarget (cycleIdx : ℕ) : (arith.ampTarget model cycleIdx).Safe := by
  unfold ampTarget
  split_ifs
  · exact Dividing.safe_pure _
  · apply Dividing.safe_bind (safe_weightedOls _)
    rintro (_ | ⟨a0, sl⟩)
    · exact Dividing.safe_pure _
    · simp [Dividing.safe_bind_iff]

@[simp] theorem safe_curveScale (target amp : ℚ) : (arith.curveScale target amp).Safe := by
  unfold curveScale
  split_ifs with hamp
  · have hfloor : 0 < ampFloor := by decide +kernel
    exact arith.safe_div_iff.mpr (hfloor.trans hamp).ne'
  · exact Dividing.safe_pure _

@[simp] theorem safe_addCurve (target phase : ℚ) (sums : ℚ × ℚ) (entry : ℕ × List (ℕ × ℚ)) :
    (arith.addCurve model target phase sums entry).Safe := by
  unfold addCurve
  apply Dividing.safe_bind (Dividing.safe_lift _)
  intro amp
  apply Dividing.safe_bind (safe_curveScale _ _)
  intro scale
  apply Dividing.safe_bind (safe_interpBins _ _)
  rintro (_ | v)
  · exact Dividing.safe_pure _
  · simp [Dividing.safe_bind_iff]

theorem safe_cycleComponent (hmodel : model.halvings = projectedHalvingDates) (date : ℤ) :
    (arith.cycleComponent model date).Safe := by
  unfold cycleComponent
  rw [hmodel]
  apply Dividing.safe_bind (safe_phaseOf date)
  rintro (_ | ⟨cycleIdx, phase⟩)
  · exact Dividing.safe_pure _
  simp only
  split_ifs
  · exact Dividing.safe_pure _
  apply Dividing.safe_bind (safe_ampTarget _)
  intro target
  apply Dividing.safe_bind (Dividing.safe_foldlM (fun sums entry => safe_addCurve _ _ _ _) _)
  intro sums
  split_ifs with hden
  · exact Dividing.safe_pure _
  apply Dividing.safe_bind (arith.safe_mul _ _)
  intro scaled
  exact arith.safe_div_iff.mpr hden

@[simp] theorem safe_spineResidual (spineA spineB : ℚ) (d : DailyClose) :
    (arith.spineResidual math spineA spineB d).Safe := by
  simp [spineResidual, Dividing.safe_bind_iff]

@[simp] theorem safe_phaseResidual (spineA spineB : ℚ) (d : DailyClose) :
    (arith.phaseResidual math spineA spineB d).Safe := by
  unfold phaseResidual
  apply Dividing.safe_bind (safe_phaseOf _)
  rintro (_ | ⟨cycleIdx, phase⟩)
  · exact Dividing.safe_pure _
  · simp [Dividing.safe_bind_iff]

@[simp] theorem safe_meanCurve (residuals : List PhaseResidual) :
    (arith.meanCurve residuals).Safe := by
  apply Dividing.safe_mapM
  intro bin _
  have hcount : (bin.items.length : ℚ) ≠ 0 := by
    exact_mod_cast Nat.ne_of_gt (List.length_pos_iff.mpr bin.items_ne_nil)
  apply Dividing.safe_bind (safe_sum _)
  intro total
  apply Dividing.safe_bind (arith.safe_div_iff.mpr hcount)
  intro mean
  exact Dividing.safe_pure _

@[simp] theorem safe_fitModel (daily : List DailyClose) (useBtcAnchors : Bool) :
    (arith.fitModel math daily useBtcAnchors).Safe := by
  unfold fitModel
  cases daily.head? with
  | none => exact Dividing.safe_pure _
  | some earliest =>
    apply Dividing.safe_bind (Dividing.safe_lift _)
    intro own
    apply Dividing.safe_bind (Dividing.safe_lift _)
    intro anchored
    apply Dividing.safe_bind (safe_weightedOls _)
    rintro (_ | ⟨spineA, spineB⟩)
    · exact Dividing.safe_pure _
    apply Dividing.safe_bind (Dividing.safe_mapM fun d _ => safe_phaseResidual _ _ d)
    intro residuals
    apply Dividing.safe_bind
    · exact Dividing.safe_mapM fun cycle _ => by simp
    intro curves
    apply Dividing.safe_bind (arith.safe_div_iff.mpr (by decide +kernel))
    intro exponent
    simp

theorem halvings_of_fitModel {daily : List DailyClose} {useBtcAnchors : Bool}
    (h : (arith.fitModel math daily useBtcAnchors).result = some (some model)) :
    model.halvings = projectedHalvingDates := by
  unfold fitModel at h
  cases hhead : daily.head? with
  | none => simp [hhead] at h
  | some earliest =>
    simp only [hhead, Dividing.result_bind, Option.bind_eq_some_iff] at h
    obtain ⟨own, -, anchored, -, fit, -, h⟩ := h
    cases fit with
    | none => simp at h
    | some fit =>
      simp only [Dividing.result_bind, Option.bind_eq_some_iff] at h
      obtain ⟨residuals, -, curves, -, exponent, -, rho, -, h⟩ := h
      simp only [Dividing.result_pure, Option.some.injEq] at h
      rw [← h]

/-- The horizons of a grid ascend, from a positive one on. -/
def HorizonsAscend (grid : List BandOffset) : Prop :=
  (0 :: grid.map BandOffset.horizon).Pairwise (· < ·)

theorem windows2_lt {grid : List BandOffset} (h : HorizonsAscend grid)
    {w : BandOffset × BandOffset} (hw : w ∈ windows2 grid) : w.1.horizon < w.2.horizon := by
  have hgrid := (List.pairwise_cons.mp h).2
  clear h
  induction grid with
  | nil => cases hw
  | cons a grid ih =>
    rw [List.map_cons, List.pairwise_cons] at hgrid
    cases grid with
    | nil => cases hw
    | cons b grid =>
      rcases List.mem_cons.mp hw with rfl | hw
      · exact hgrid.1 _ (by simp)
      · exact ih hw hgrid.2

theorem safe_offsetsAt {grid : List BandOffset} (h : HorizonsAscend grid) (k : ℤ) :
    (arith.offsetsAt grid k).Safe := by
  unfold offsetsAt
  cases hhead : grid.head? with
  | none => exact Dividing.safe_pure _
  | some first =>
    simp only
    split_ifs
    · have hpos : 0 < first.horizon :=
        (List.pairwise_cons.mp h).1 _ (List.mem_map_of_mem (List.mem_of_mem_head? hhead))
      apply Dividing.safe_bind
      · rw [safe_div_iff]
        exact_mod_cast hpos.ne'
      · intro t
        simp [Dividing.safe_bind_iff]
    · cases hfind : (windows2 grid).find? fun w => k ≤ w.2.horizon with
      | none => exact Dividing.safe_pure _
      | some w =>
        have hlt := windows2_lt h (List.mem_of_find?_eq_some hfind)
        apply Dividing.safe_bind
        · rw [safe_div_iff]
          exact_mod_cast (by omega : w.2.horizon - w.1.horizon ≠ 0)
        · intro t
          simp [Dividing.safe_bind_iff]

@[simp] theorem safe_blend (m₁ m₁' m₂ m₂' : ℚ) : (arith.blend m₁ m₁' m₂ m₂').Safe := by
  simp [blend, Dividing.safe_bind_iff]

@[simp] theorem safe_bandError (rhoK : ℚ) (pair : DayFit × DayFit) :
    (arith.bandError rhoK pair).Safe := by
  simp [bandError, Dividing.safe_bind_iff]

@[simp] theorem safe_bandOffset (fits : List DayFit) (k : ℤ) :
    (arith.bandOffset math model fits k).Safe := by
  unfold bandOffset
  apply Dividing.safe_bind (Dividing.safe_lift _)
  intro rhoK
  apply Dividing.safe_bind (Dividing.safe_mapM fun pair _ => safe_bandError rhoK pair)
  intro errors
  apply Dividing.safe_bind (Dividing.safe_mapM fun pair _ => arith.safe_sub _ _)
  intro changes
  split_ifs
  · exact Dividing.safe_pure _
  · simp [Dividing.safe_bind_iff]

theorem bandOffset_horizon {fits : List DayFit} {k : ℤ} {offset : BandOffset}
    (h : (arith.bandOffset math model fits k).result = some (some offset)) :
    offset.horizon = k := by
  unfold bandOffset at h
  simp only [Dividing.result_bind, Option.bind_eq_some_iff] at h
  obtain ⟨rhoK, -, errors, -, changes, -, h⟩ := h
  split_ifs at h
  · simp at h
  · simp only [Dividing.result_bind, Option.bind_eq_some_iff] at h
    obtain ⟨-, -, -, -, -, -, -, -, -, -, -, -, lo, -, hi, -, h⟩ := h
    simp only [Dividing.result_pure, Option.some.injEq] at h
    rw [← h]

theorem horizonsAscend_of_offsets {fits : List DayFit} {ks : List ℤ}
    {offsets : List (Option BandOffset)}
    (h : (ks.mapM fun k => (arith.bandOffset math model fits k).result) = some offsets) :
    (offsets.reduceOption.map BandOffset.horizon).Sublist ks := by
  induction ks generalizing offsets with
  | nil =>
    obtain rfl : [] = offsets := Option.some.inj h
    exact List.Sublist.slnil
  | cons k ks ih =>
    obtain ⟨offset, rest, hoffset, hrest, rfl⟩ := mapM_cons_eq_some.mp h
    cases offset with
    | none =>
      rw [List.reduceOption_cons_of_none]
      exact (ih hrest).cons k
    | some offset =>
      rw [List.reduceOption_cons_of_some, List.map_cons, bandOffset_horizon hoffset]
      exact (ih hrest).cons_cons k

theorem buildBandGrid_horizons {daily : List DailyClose} {grid : List BandOffset}
    (h : (arith.buildBandGrid math model daily).result = some grid) : HorizonsAscend grid := by
  unfold buildBandGrid at h
  simp only [Dividing.result_bind, Option.bind_eq_some_iff, Dividing.result_mapM] at h
  obtain ⟨fits, -, offsets, hoffsets, h⟩ := h
  obtain rfl := Option.some.inj h
  have hall : (0 :: bandHorizons).Pairwise (· < ·) := by decide
  exact hall.sublist ((horizonsAscend_of_offsets hoffsets).cons_cons 0)

theorem safe_buildBandGrid (hmodel : model.halvings = projectedHalvingDates)
    (daily : List DailyClose) : (arith.buildBandGrid math model daily).Safe := by
  unfold buildBandGrid
  apply Dividing.safe_bind
  · apply Dividing.safe_mapM
    intro d _
    apply Dividing.safe_bind (safe_spineResidual _ _ d)
    intro r
    apply Dividing.safe_bind (safe_cycleComponent hmodel d.date)
    intro c
    exact Dividing.safe_pure _
  intro fits
  apply Dividing.safe_bind (Dividing.safe_mapM fun k _ => safe_bandOffset fits k)
  intro offsets
  exact Dividing.safe_pure _

theorem safe_compositeDay (hmodel : model.halvings = projectedHalvingDates)
    {grid : List BandOffset} (hgrid : HorizonsAscend grid) (today : ℤ) (g0 rhoK : ℚ) (k : ℤ) :
    (arith.compositeDay math model grid today g0 rhoK k).Safe := by
  simp [compositeDay, Dividing.safe_bind_iff, safe_cycleComponent hmodel, safe_offsetsAt hgrid]

theorem safe_compositeDays (hmodel : model.halvings = projectedHalvingDates)
    {grid : List BandOffset} (hgrid : HorizonsAscend grid) (today : ℤ) (g0 rhoK : ℚ)
    (ks : List ℤ) : (arith.compositeDays math model grid today g0 rhoK ks).Safe := by
  induction ks generalizing rhoK with
  | nil => exact Dividing.safe_pure _
  | cons k ks ih =>
    unfold compositeDays
    apply Dividing.safe_bind (arith.safe_mul _ _)
    intro next
    apply Dividing.safe_bind (safe_compositeDay hmodel hgrid today g0 next k)
    intro day
    apply Dividing.safe_bind (ih next)
    intro days
    exact Dividing.safe_pure _

/-- Up to the normalization the composite projection divides by nothing that can be zero. -/
theorem safe_compositePath (daily : List DailyClose) (useBtcAnchors : Bool) :
    (arith.compositePath math daily useBtcAnchors).Safe := by
  unfold compositePath
  simp only
  split
  · split_ifs
    · exact Dividing.safe_pure _
    · exact Dividing.safe_pure _
    · rw [Dividing.safe_bind_iff]
      refine ⟨safe_fitModel _ _, ?_⟩
      rintro (_ | model) hfit
      · exact Dividing.safe_pure _
      have hmodel := halvings_of_fitModel hfit
      rw [Dividing.safe_bind_iff]
      refine ⟨safe_buildBandGrid hmodel _, ?_⟩
      intro bands hbands
      have hgrid := buildBandGrid_horizons hbands
      apply Dividing.safe_bind (safe_spineResidual _ _ _)
      intro rToday
      apply Dividing.safe_bind (safe_cycleComponent hmodel _)
      intro component
      apply Dividing.safe_bind (arith.safe_sub _ _)
      intro g0
      exact safe_compositeDays hmodel hgrid _ _ _ _
  · exact Dividing.safe_pure _

end Safety

end DecimalArith
end CryptoCollector.Collectors

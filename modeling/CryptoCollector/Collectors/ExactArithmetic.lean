import CryptoCollector.Collectors.DecimalProjection

/-!
# The overlay and the projections without rounding

With exact arithmetic the functions on decimals are those on rationals: a division by
zero is all that makes an operation fail.
-/

namespace CryptoCollector.Collectors
open Foundations

/-- Arithmetic that neither rounds nor overflows. -/
def exactArith : DecimalArith where
  IsDecimal _ := True
  checkedAdd x y := some (x + y)
  checkedSub x y := some (x - y)
  checkedMul x y := some (x * y)
  checkedDiv := checkedDiv
  checkedDiv_zero _ := if_pos rfl
  checkedDiv_self x _ hne := by rw [checkedDiv, if_neg hne, div_self hne]
  checkedDiv_one x _ := by rw [checkedDiv, if_neg one_ne_zero, div_one]

namespace DecimalArith

@[simp] theorem exact_add (x y : ℚ) : (exactArith.add x y).result = some (x + y) := rfl

@[simp] theorem exact_sub (x y : ℚ) : (exactArith.sub x y).result = some (x - y) := rfl

@[simp] theorem exact_mul (x y : ℚ) : (exactArith.mul x y).result = some (x * y) := rfl

@[simp] theorem exact_div (x y : ℚ) :
    (exactArith.div x y).result = Collectors.checkedDiv x y := rfl

theorem overlayCycle_exact (cycle : Group ℤ CycleDay) :
    (exactArith.overlayCycle cycle).result = Collectors.overlayCycle cycle := by
  simp only [overlayCycle, Dividing.result_bind, Dividing.result_lift, Dividing.result_mapM,
    exact_div, Dividing.result_pure]
  rfl

theorem computeOverlay_exact (daily : List DailyClose) :
    (exactArith.computeOverlay daily).result = Collectors.computeOverlay daily := by
  simp only [computeOverlay, Dividing.result_bind, Dividing.result_mapM, overlayCycle_exact,
    Dividing.result_pure]
  rfl

theorem cycleAnchor_exact (realPoints : List OverlayPoint) (cycle : Group ℤ RawPoint) :
    (exactArith.cycleAnchor realPoints cycle).result = Collectors.cycleAnchor realPoints cycle := by
  unfold cycleAnchor Collectors.cycleAnchor
  cases realPoints.find? fun p => p.cycleNumber = cycle.key with
  | none => rfl
  | some rp => rfl

theorem normalizeCycle_exact (realPoints : List OverlayPoint) (cycle : Group ℤ RawPoint) :
    (exactArith.normalizeCycle realPoints cycle).result =
      Collectors.normalizeCycle realPoints cycle := by
  simp only [normalizeCycle, Dividing.result_bind, Dividing.result_lift, Dividing.result_mapM,
    exact_div, Dividing.result_pure, cycleAnchor_exact]
  rfl

theorem normalizeProjection_exact (realPoints : List OverlayPoint) (raw : List RawPoint) :
    (exactArith.normalizeProjection realPoints raw).result =
      Collectors.normalizeProjection realPoints raw := by
  simp only [normalizeProjection, Dividing.result_bind, Dividing.result_mapM,
    normalizeCycle_exact, Dividing.result_pure]
  rfl

theorem replayDay_exact (today : DailyClose) (basePrice : ℚ) (k : ℤ) (refPrice : ℚ) :
    (exactArith.replayDay today basePrice k refPrice).result =
      Collectors.replayDay today basePrice k refPrice := by
  simp only [replayDay, Dividing.result_bind, exact_mul, exact_div, Dividing.result_pure]
  rfl

theorem projectCycleRepeat_exact (daily : List DailyClose) (realPoints : List OverlayPoint) :
    (exactArith.projectCycleRepeat daily realPoints).result =
      Collectors.projectCycleRepeat daily realPoints := by
  simp only [projectCycleRepeat, replayPath, Collectors.projectCycleRepeat, Dividing.result_bind,
    normalizeProjection_exact]
  cases (collectSeries daily).getLast? with
  | none => rfl
  | some today =>
    cases (collectSeries daily).head? with
    | none => rfl
    | some earliest =>
      simp only
      split_ifs with hshort
      · rfl
      · cases priceAtOrBefore (collectSeries daily) (today.date - cycleLengthDays) with
        | none => rfl
        | some basePrice =>
          simp only [Dividing.result_mapM, replayDay_exact]
          rfl

section Composite

variable {math : DecimalMath} {model : FittedModel}

@[simp] theorem sum_exact (xs : List ℚ) : (exactArith.sum xs).result = some xs.sum := by
  have hfold : ∀ x, (xs.foldlM exactArith.add x).result = some (x + xs.sum) := by
    induction xs with
    | nil => simp
    | cons y xs ih =>
      intro x
      rw [List.foldlM_cons, Dividing.result_bind, exact_add, Option.bind_some, ih, List.sum_cons,
        add_assoc]
  rw [sum, hfold, zero_add]

theorem checkedDiv_of_ne {x y : ℚ} (h : y ≠ 0) : Collectors.checkedDiv x y = some (x / y) :=
  if_neg h

@[simp] theorem pow10_exact (x : ℚ) :
    (exactArith.pow10 math x).result = Collectors.pow10 math x := by
  simp only [pow10, Collectors.pow10, Dividing.result_bind, Dividing.result_lift, exact_mul,
    Option.bind_some]
  rfl

@[simp] theorem weightedOls_exact (samples : List FitSample) :
    (exactArith.weightedOls samples).result = some (Collectors.weightedOls samples) := by
  have hmul : ∀ f g : FitSample → ℚ, (samples.mapM fun s => exactArith.mul (f s) (g s)).result =
      some (samples.map fun s => f s * g s) :=
    fun f g => Dividing.result_mapM_of_some (fun s => exact_mul _ _) samples
  have hsquares : ∀ mx : ℚ, (samples.mapM fun s : FitSample => (do
      let dx ← exactArith.sub s.x mx
      let wdx ← exactArith.mul s.w dx
      exactArith.mul wdx dx : Dividing ℚ ℚ)).result =
        some (samples.map fun s => s.w * (s.x - mx) * (s.x - mx)) :=
    fun mx => Dividing.result_mapM_of_some (fun s => rfl) samples
  have hproducts : ∀ mx my : ℚ, (samples.mapM fun s : FitSample => (do
      let dx ← exactArith.sub s.x mx
      let dy ← exactArith.sub s.y my
      let wdx ← exactArith.mul s.w dx
      exactArith.mul wdx dy : Dividing ℚ ℚ)).result =
        some (samples.map fun s => s.w * (s.x - mx) * (s.y - my)) :=
    fun mx my => Dividing.result_mapM_of_some (fun s => rfl) samples
  simp only [weightedOls, Collectors.weightedOls, Dividing.result_bind, sum_exact,
    Option.bind_some]
  by_cases hw : (samples.map FitSample.w).sum ≤ 0
  · rw [if_pos hw, if_pos hw]
    rfl
  rw [if_neg hw, if_neg hw]
  simp only [Dividing.result_bind, hmul, sum_exact, exact_div, Option.bind_some,
    checkedDiv_of_ne (not_le.mp hw).ne', hsquares]
  split_ifs with hx
  · rfl
  · simp only [Dividing.result_bind, hproducts, sum_exact, exact_div, exact_mul, exact_sub,
      Option.bind_some, checkedDiv_of_ne (not_le.mp hx).ne', Dividing.result_pure]

@[simp] theorem quantile_exact (sorted : List ℚ) (q : ℚ) :
    (exactArith.quantile sorted q).result = Collectors.quantile sorted q := by
  simp only [quantile, Collectors.quantile]
  split_ifs
  · rfl
  · simp only [Dividing.result_bind, Dividing.result_lift, exact_mul, exact_sub, exact_add,
      Option.bind_some]
    rfl

@[simp] theorem phaseOf_exact (date : ℤ) :
    (exactArith.phaseOf date projectedHalvingDates).result =
      some (Collectors.phaseOf date projectedHalvingDates) := by
  unfold phaseOf Collectors.phaseOf
  split_ifs
  · rfl
  · have hlen : (cycleDaysIn projectedHalvingDates (halvingIndex date projectedHalvingDates) : ℚ) ≠
        0 := by
      exact_mod_cast cycleDaysIn_ne_zero _
    simp only [Dividing.result_bind, exact_div, checkedDiv_of_ne hlen, Option.bind_some,
      Dividing.result_pure]
    rfl

@[simp] theorem interpBins_exact (curve : List (ℕ × ℚ)) (phase : ℚ) :
    (exactArith.interpBins curve phase).result = some (Collectors.interpBins curve phase) := by
  simp only [interpBins, Collectors.interpBins, Dividing.result_bind, exact_mul, exact_sub,
    Option.bind_some]
  cases getKey curve (clampBin ⌊phase * nbins - 1 / 2⌋) with
  | none =>
    cases getKey curve (clampBin (⌊phase * nbins - 1 / 2⌋ + 1)) with
    | none => rfl
    | some hv => rfl
  | some lv =>
    cases getKey curve (clampBin (⌊phase * nbins - 1 / 2⌋ + 1)) with
    | none => rfl
    | some hv =>
      simp only
      split_ifs
      · rfl
      · rfl

@[simp] theorem spine_exact (date : ℤ) :
    (exactArith.spine math model date).result = model.spine math date := by
  simp only [spine, FittedModel.spine, Dividing.result_bind, Dividing.result_lift, exact_mul,
    exact_add, Option.bind_some]
  rfl

@[simp] theorem ampTarget_exact (cycleIdx : ℕ) :
    (exactArith.ampTarget model cycleIdx).result = some (model.ampTarget cycleIdx) := by
  unfold ampTarget FittedModel.ampTarget
  split_ifs
  · rfl
  · simp only [Dividing.result_bind, weightedOls_exact, Option.bind_some]
    cases Collectors.weightedOls (model.amps.map fun e => (⟨e.1, e.2, 1⟩ : FitSample)) with
    | none => rfl
    | some fit => rfl

/-- What the loop of `cycle_component` adds for one curve. -/
def scaledValue (model : FittedModel) (target phase : ℚ) (entry : ℕ × List (ℕ × ℚ)) :
    Option (Option ℚ) := do
  let amp ← getKey model.amps entry.1
  let scale := if ampFloor < amp then target / amp else 1
  return (Collectors.interpBins entry.2 phase).map fun v => scale * v

theorem addCurve_exact (target phase : ℚ) (sums : ℚ × ℚ) (entry : ℕ × List (ℕ × ℚ)) :
    (exactArith.addCurve model target phase sums entry).result =
      (scaledValue model target phase entry).map fun value =>
        value.elim sums fun v => (sums.1 + v, sums.2 + 1) := by
  simp only [addCurve, scaledValue, Dividing.result_bind, Dividing.result_lift, interpBins_exact]
  cases getKey model.amps entry.1 with
  | none => rfl
  | some amp =>
    have hscale : (exactArith.curveScale target amp).result =
        some (if ampFloor < amp then target / amp else 1) := by
      unfold curveScale
      split_ifs with hamp
      · have hfloor : 0 < ampFloor := by decide +kernel
        exact checkedDiv_of_ne (hfloor.trans hamp).ne'
      · rfl
    simp only [Option.bind_some, hscale]
    cases Collectors.interpBins entry.2 phase with
    | none => rfl
    | some v => rfl

theorem foldlM_addCurve_exact (target phase : ℚ) (curves : List (ℕ × List (ℕ × ℚ)))
    (sums : ℚ × ℚ) :
    (curves.foldlM (exactArith.addCurve model target phase) sums).result =
      (curves.mapM (scaledValue model target phase)).map fun values =>
        (sums.1 + values.reduceOption.sum, sums.2 + values.reduceOption.length) := by
  induction curves generalizing sums with
  | nil => simp
  | cons entry curves ih =>
    rw [List.foldlM_cons, Dividing.result_bind, addCurve_exact, List.mapM_cons]
    cases scaledValue model target phase entry with
    | none => rfl
    | some value =>
      simp only [Option.map_some, Option.bind_some, ih]
      cases curves.mapM (scaledValue model target phase) with
      | none => rfl
      | some values =>
        cases value with
        | none => simp [List.reduceOption_cons_of_none]
        | some v =>
          simp [List.reduceOption_cons_of_some, add_assoc, add_comm (1 : ℚ)]

theorem cycleComponent_exact (hmodel : model.halvings = projectedHalvingDates) (date : ℤ) :
    (exactArith.cycleComponent model date).result = model.cycleComponent date := by
  unfold cycleComponent FittedModel.cycleComponent
  rw [hmodel, Dividing.result_bind, phaseOf_exact, Option.bind_some]
  cases Collectors.phaseOf date projectedHalvingDates with
  | none => rfl
  | some position =>
    obtain ⟨cycleIdx, phase⟩ := position
    simp only
    split_ifs with hempty
    · rfl
    · rw [Dividing.result_bind, ampTarget_exact, Option.bind_some, Dividing.result_bind,
        foldlM_addCurve_exact]
      change _ = (model.curves.mapM (scaledValue model (model.ampTarget cycleIdx) phase)).bind _
      cases model.curves.mapM (scaledValue model (model.ampTarget cycleIdx) phase) with
      | none => rfl
      | some values =>
        simp only [Option.map_some, Option.bind_some, zero_add, Nat.cast_eq_zero]
        cases hvalues : values.reduceOption with
        | nil => simp
        | cons v rest =>
          have hcount : ((v :: rest).length : ℚ) ≠ 0 := by
            exact_mod_cast Nat.succ_ne_zero rest.length
          simp only [List.length_cons, Nat.succ_ne_zero, if_false, List.isEmpty_cons,
            Bool.false_eq_true, Dividing.result_bind, exact_mul, exact_div, Option.bind_some]
          exact checkedDiv_of_ne hcount

@[simp] theorem spineResidual_exact (spineA spineB : ℚ) (d : DailyClose) :
    (exactArith.spineResidual math spineA spineB d).result =
      Collectors.spineResidual math spineA spineB d := by
  simp only [spineResidual, Collectors.spineResidual, Dividing.result_bind, Dividing.result_lift,
    exact_mul, exact_add, exact_sub, Option.bind_some]
  rfl

theorem phaseResiduals_exact (spineA spineB : ℚ) (daily : List DailyClose) :
    ((daily.mapM (exactArith.phaseResidual math spineA spineB)).result).map List.reduceOption =
      (daily.filterMap fun d =>
        (Collectors.phaseOf d.date projectedHalvingDates).map fun p => (d, p.1, p.2)).mapM
          fun (d, cycleIdx, phase) => do
            let r ← Collectors.spineResidual math spineA spineB d
            return PhaseResidual.mk cycleIdx (min ⌊phase * nbins⌋.toNat (nbins - 1)) r := by
  rw [Dividing.result_mapM]
  induction daily with
  | nil => rfl
  | cons d daily ih =>
    rw [List.mapM_cons]
    cases hphase : Collectors.phaseOf d.date projectedHalvingDates with
    | none =>
      have hnone : (exactArith.phaseResidual math spineA spineB d).result = some none := by
        simp [phaseResidual, hphase]
      rw [hnone, List.filterMap_cons_none (by rw [hphase]; rfl), ← ih]
      cases daily.mapM fun d => (exactArith.phaseResidual math spineA spineB d).result with
      | none => rfl
      | some rest => rfl
    | some position =>
      obtain ⟨cycleIdx, phase⟩ := position
      have hsome : (exactArith.phaseResidual math spineA spineB d).result =
          (Collectors.spineResidual math spineA spineB d).map fun r =>
            some ⟨cycleIdx, min ⌊phase * nbins⌋.toNat (nbins - 1), r⟩ := by
        simp only [phaseResidual, Dividing.result_bind, phaseOf_exact, hphase, Option.bind_some,
          spineResidual_exact, exact_mul, Dividing.result_pure, Option.map_eq_bind]
        rfl
      rw [hsome, List.filterMap_cons_some (by rw [hphase]; rfl), List.mapM_cons, ← ih]
      dsimp only
      cases Collectors.spineResidual math spineA spineB d with
      | none => rfl
      | some r =>
        cases daily.mapM fun d => (exactArith.phaseResidual math spineA spineB d).result with
        | none => rfl
        | some rest => rfl

@[simp] theorem meanCurve_exact (residuals : List PhaseResidual) :
    (exactArith.meanCurve residuals).result = some (Collectors.meanCurve residuals) := by
  apply Dividing.result_mapM_of_some
  intro bin
  have hcount : (bin.items.length : ℚ) ≠ 0 := by
    exact_mod_cast Nat.ne_of_gt (List.length_pos_iff.mpr bin.items_ne_nil)
  simp only [Dividing.result_bind, sum_exact, exact_div, Option.bind_some,
    checkedDiv_of_ne hcount, Dividing.result_pure]

theorem fitModel_exact (daily : List DailyClose) (useBtcAnchors : Bool) :
    (exactArith.fitModel math daily useBtcAnchors).result =
      Collectors.fitModel math daily useBtcAnchors := by
  unfold fitModel Collectors.fitModel
  cases daily.head? with
  | none => rfl
  | some earliest =>
    simp only [Dividing.result_bind, Dividing.result_lift, weightedOls_exact]
    congr 1
    funext own
    congr 1
    funext anchored
    rw [Option.bind_some]
    cases Collectors.weightedOls (own ++ anchored) with
    | none => rfl
    | some fit =>
      obtain ⟨spineA, spineB⟩ := fit
      simp only [Dividing.result_bind, Dividing.result_lift]
      rw [← phaseResiduals_exact]
      cases (daily.mapM (exactArith.phaseResidual math spineA spineB)).result with
      | none => rfl
      | some residuals =>
        have hcurves : ∀ observed : List (Group ℕ PhaseResidual),
            (observed.mapM fun cycle => (do
              let curve ← exactArith.meanCurve cycle.items
              return (cycle.key, curve) : Dividing ℚ (ℕ × List (ℕ × ℚ)))).result =
                some (observed.map fun cycle => (cycle.key, Collectors.meanCurve cycle.items)) :=
          Dividing.result_mapM_of_some fun cycle => by simp
        have hhalf : halfLifeDays ≠ 0 := by decide +kernel
        simp only [Option.bind_some, hcurves, exact_div, checkedDiv_of_ne hhalf]
        rfl

@[simp] theorem offsetsAt_exact (grid : List BandOffset) (k : ℤ) :
    (exactArith.offsetsAt grid k).result = Collectors.offsetsAt grid k := by
  unfold offsetsAt Collectors.offsetsAt
  cases grid.head? with
  | none => rfl
  | some first =>
    simp only
    split_ifs with hfirst
    · simp only [Dividing.result_bind, exact_div, exact_mul, Option.bind_some]
      rfl
    · cases (windows2 grid).find? fun w => k ≤ w.2.horizon with
      | none => rfl
      | some w =>
        simp only [Dividing.result_bind, exact_div, exact_mul, exact_sub, exact_add,
          Option.bind_some]
        rfl

@[simp] theorem blend_exact (m₁ m₁' m₂ m₂' : ℚ) :
    (exactArith.blend m₁ m₁' m₂ m₂').result = some (((m₁ - m₁') + (m₂ - m₂')) / 2) := by
  simp only [blend, Dividing.result_bind, exact_sub, exact_add, exact_div, Option.bind_some]
  exact checkedDiv_of_ne two_ne_zero

@[simp] theorem bandOffset_exact (fits : List DayFit) (k : ℤ) :
    (exactArith.bandOffset math model fits k).result =
      Collectors.bandOffset math model fits k := by
  unfold bandOffset Collectors.bandOffset
  simp only [Dividing.result_bind, Dividing.result_lift]
  congr 1
  funext rhoK
  have herrors : ∀ pairs : List (DayFit × DayFit),
      (pairs.mapM (exactArith.bandError rhoK)).result = some (pairs.map fun pair =>
        pair.2.residual - (pair.2.component + (pair.1.residual - pair.1.component) * rhoK)) :=
    Dividing.result_mapM_of_some fun pair => rfl
  have hchanges : ∀ pairs : List (DayFit × DayFit),
      (pairs.mapM fun pair => exactArith.sub pair.2.residual pair.1.residual).result =
        some (pairs.map fun pair => pair.2.residual - pair.1.residual) :=
    Dividing.result_mapM_of_some fun pair => rfl
  simp only [herrors, hchanges, Option.bind_some, length_sortBy]
  split_ifs with hfew
  · rfl
  · simp only [Dividing.result_bind, quantile_exact, blend_exact, Option.bind_some]
    rfl

theorem buildBandGrid_exact (hmodel : model.halvings = projectedHalvingDates)
    (daily : List DailyClose) :
    (exactArith.buildBandGrid math model daily).result =
      Collectors.buildBandGrid math model daily := by
  unfold buildBandGrid Collectors.buildBandGrid
  simp only [Dividing.result_bind, Dividing.result_mapM, spineResidual_exact,
    cycleComponent_exact hmodel, bandOffset_exact, Dividing.result_pure]
  rfl

theorem compositeDay_exact (hmodel : model.halvings = projectedHalvingDates)
    (grid : List BandOffset) (today : ℤ) (g0 : ℚ) (k : ℤ) :
    (exactArith.compositeDay math model grid today g0 (model.rho ^ k.toNat) k).result =
      Collectors.compositeDay math model grid today g0 k := by
  unfold compositeDay Collectors.compositeDay
  simp only [Dividing.result_bind, spine_exact, cycleComponent_exact hmodel, exact_add, exact_mul,
    offsetsAt_exact, pow10_exact, Option.bind_some, Dividing.result_pure]
  rfl

/-- After `n` days the decay is the power `n` of its rate. -/
theorem compositeDays_exact (hmodel : model.halvings = projectedHalvingDates)
    (grid : List BandOffset) (today : ℤ) (g0 : ℚ) (n m : ℕ) :
    (exactArith.compositeDays math model grid today g0 (model.rho ^ n)
      ((List.range' n m).map fun k : ℕ => (k : ℤ) + 1)).result =
        ((List.range' n m).map fun k : ℕ => (k : ℤ) + 1).mapM
          (Collectors.compositeDay math model grid today g0) := by
  induction m generalizing n with
  | zero => rfl
  | succ m ih =>
    have hday : (exactArith.compositeDay math model grid today g0 (model.rho ^ (n + 1))
        ((n : ℤ) + 1)).result = Collectors.compositeDay math model grid today g0 ((n : ℤ) + 1) :=
      compositeDay_exact hmodel grid today g0 ((n : ℤ) + 1)
    rw [List.range'_succ, List.map_cons, compositeDays, List.mapM_cons]
    simp only [Dividing.result_bind, exact_mul, Option.bind_some, ← pow_succ, hday, ih,
      Dividing.result_pure]
    rfl

theorem horizon_exact (hmodel : model.halvings = projectedHalvingDates)
    (grid : List BandOffset) (today : ℤ) (g0 : ℚ) :
    (exactArith.compositeDays math model grid today g0 1 horizon).result =
      horizon.mapM (Collectors.compositeDay math model grid today g0) := by
  rw [horizon, List.range_eq_range', ← pow_zero model.rho]
  exact compositeDays_exact hmodel grid today g0 0 cycleLengthDays

theorem projectComposite_exact (daily : List DailyClose) (realPoints : List OverlayPoint)
    (useBtcAnchors : Bool) :
    (exactArith.projectComposite math daily realPoints useBtcAnchors).result =
      Collectors.projectComposite math daily realPoints useBtcAnchors := by
  simp only [projectComposite, compositePath, Collectors.projectComposite, Dividing.result_bind,
    normalizeProjection_exact]
  cases (collectSeries daily).getLast? with
  | none => rfl
  | some today =>
    cases (collectSeries daily).head? with
    | none => rfl
    | some earliest =>
      simp only
      split_ifs with hlow hshort
      · rfl
      · rfl
      · simp only [Dividing.result_bind, fitModel_exact]
        cases hfit : Collectors.fitModel math
            ((collectSeries daily).filter fun d => 0 < d.close) useBtcAnchors with
        | none => rfl
        | some fit =>
          cases fit with
          | none => rfl
          | some model =>
            have hmodel := halvings_of_fitModel ((fitModel_exact _ _).trans hfit)
            simp only [Option.bind_some, Dividing.result_bind, buildBandGrid_exact hmodel,
              spineResidual_exact, cycleComponent_exact hmodel, exact_sub, horizon_exact hmodel]
            simp only [Option.bind_assoc]
            rfl

end Composite

end DecimalArith
end CryptoCollector.Collectors

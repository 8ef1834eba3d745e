import CryptoCollector.Collectors.ProjectedKeys
import CryptoCollector.Foundations.Interpolation
import Mathlib.Data.List.ReduceOption

/-!
# The order of the projection bands

The offsets of a horizon are quantiles of two samples less their medians, so the lower one
is not positive and the upper one not negative. Interpolation between horizons keeps both,
and so the band of each projected price lies around it.
-/

namespace CryptoCollector.Collectors
open Foundations

section Quantile

variable {sorted : List ℚ} {p q : ℚ}

/-- The quantile is the sample continued between its entries. -/
theorem quantile_eq (hne : sorted ≠ []) (hq : 0 ≤ q) :
    quantile sorted q =
      some (interpolate (orderStatistic sorted) (q * ((sorted.length : ℚ) - 1))) := by
  have hlength : 1 ≤ sorted.length := List.length_pos_iff.mpr hne
  have hcast : (1 : ℚ) ≤ sorted.length := by exact_mod_cast hlength
  have hpos : 0 ≤ q * ((sorted.length : ℚ) - 1) := mul_nonneg hq (by linarith)
  have hfloor : ((⌊q * ((sorted.length : ℚ) - 1)⌋ : ℤ) : ℚ) = ⌊q * ((sorted.length : ℚ) - 1)⌋₊ :=
    (natCast_floor_eq_intCast_floor hpos).symm
  unfold quantile
  dsimp only
  split_ifs with hone
  · have hzero : q * ((sorted.length : ℚ) - 1) = 0 := by simp [hone]
    have hfirst := getElem?_orderStatistic hne 0
    rw [hone, Nat.min_zero] at hfirst
    rw [hzero, interpolate, Nat.floor_zero, Nat.cast_zero, sub_zero, zero_mul, add_zero, hfirst]
  · have hnext : min (min ⌊q * ((sorted.length : ℚ) - 1)⌋.toNat (sorted.length - 1) + 1)
        (sorted.length - 1) =
          min (⌊q * ((sorted.length : ℚ) - 1)⌋.toNat + 1) (sorted.length - 1) := by
      omega
    rw [hnext, getElem?_orderStatistic hne, getElem?_orderStatistic hne, hfloor, Int.floor_toNat]
    rfl

theorem quantile_mono (hsorted : sorted.Pairwise (· ≤ ·)) (hne : sorted ≠ []) (hp : 0 ≤ p)
    (hpq : p ≤ q) {x y : ℚ} (hx : quantile sorted p = some x) (hy : quantile sorted q = some y) :
    x ≤ y := by
  have hlength : 1 ≤ sorted.length := List.length_pos_iff.mpr hne
  have hcast : (0 : ℚ) ≤ (sorted.length : ℚ) - 1 := by
    rw [sub_nonneg]
    exact_mod_cast hlength
  rw [quantile_eq hne hp] at hx
  rw [quantile_eq hne (hp.trans hpq)] at hy
  obtain rfl := Option.some.inj hx
  obtain rfl := Option.some.inj hy
  apply interpolate_mono (orderStatistic_mono hsorted) (mul_nonneg hp hcast)
  gcongr

end Quantile

/-- A band offset with its sides around zero. -/
structure BandOffset.Straddles (offset : BandOffset) : Prop where
  horizon_pos : 0 < offset.horizon
  lo_le : offset.lo ≤ 0
  le_hi : 0 ≤ offset.hi

section Bands

variable {math : DecimalMath} {model : FittedModel} {fits : List DayFit} {k : ℤ}
  {offset : BandOffset}

theorem sortBy_id_sorted (xs : List ℚ) : (sortBy id xs).Pairwise (· ≤ ·) :=
  List.pairwise_insertionSort (fun x y : ℚ => id x ≤ id y) xs

/-- Where there are samples enough there is one. -/
theorem samples_ne_nil {α : Type} {pairs : List α} (hfew : ¬pairs.length < minBandSamples)
    (f : α → ℚ) : sortBy id (pairs.map f) ≠ [] := by
  intro hnil
  have hlength := congrArg List.length hnil
  rw [length_sortBy, List.length_map, List.length_nil] at hlength
  rw [hlength] at hfew
  exact hfew (by decide)

/-- Each side is the mean of two quantiles less their medians. -/
theorem bandOffset_straddles (hk : 0 < k)
    (h : bandOffset math model fits k = some (some offset)) : offset.Straddles := by
  unfold bandOffset at h
  obtain ⟨rhoK, -, h⟩ := Option.bind_eq_some_iff.mp h
  dsimp only at h
  split_ifs at h with hfew
  · cases h
  · obtain ⟨me10, hme10, h⟩ := Option.bind_eq_some_iff.mp h
    obtain ⟨me50, hme50, h⟩ := Option.bind_eq_some_iff.mp h
    obtain ⟨me90, hme90, h⟩ := Option.bind_eq_some_iff.mp h
    obtain ⟨rc10, hrc10, h⟩ := Option.bind_eq_some_iff.mp h
    obtain ⟨rc50, hrc50, h⟩ := Option.bind_eq_some_iff.mp h
    obtain ⟨rc90, hrc90, h⟩ := Option.bind_eq_some_iff.mp h
    cases h
    rw [length_sortBy, List.length_map] at hfew
    have hme := samples_ne_nil hfew fun pair => pair.2.residual -
      (pair.2.component + (pair.1.residual - pair.1.component) * rhoK)
    have hrc := samples_ne_nil hfew fun pair => pair.2.residual - pair.1.residual
    have hmeLow := quantile_mono (sortBy_id_sorted _) hme (by norm_num) (by norm_num) hme10 hme50
    have hmeHigh := quantile_mono (sortBy_id_sorted _) hme (by norm_num) (by norm_num) hme50 hme90
    have hrcLow := quantile_mono (sortBy_id_sorted _) hrc (by norm_num) (by norm_num) hrc10 hrc50
    have hrcHigh := quantile_mono (sortBy_id_sorted _) hrc (by norm_num) (by norm_num) hrc50 hrc90
    constructor
    · exact hk
    · dsimp only
      linarith
    · dsimp only
      linarith

theorem windows2_find {grid : List BandOffset} {first a b : BandOffset} (hfirst : first.horizon < k)
    (h : (windows2 (first :: grid)).find? (fun w => k ≤ w.2.horizon) = some (a, b)) :
    a.horizon < k ∧ k ≤ b.horizon ∧ a ∈ first :: grid ∧ b ∈ first :: grid := by
  induction grid generalizing first with
  | nil => cases h
  | cons second grid ih =>
    have hwindows : windows2 (first :: second :: grid) =
        (first, second) :: windows2 (second :: grid) := rfl
    rw [hwindows, List.find?_cons] at h
    by_cases hle : k ≤ second.horizon
    · simp only [hle, decide_true] at h
      obtain ⟨rfl, rfl⟩ := Prod.mk.inj (Option.some.inj h)
      exact ⟨hfirst, hle, List.mem_cons_self, List.mem_cons_of_mem _ List.mem_cons_self⟩
    · simp only [hle, decide_false] at h
      obtain ⟨hbefore, hreach, ha, hb⟩ := ih (not_le.mp hle) h
      exact ⟨hbefore, hreach, List.mem_cons_of_mem _ ha, List.mem_cons_of_mem _ hb⟩

/-- Interpolation between offsets around zero gives offsets around zero. -/
theorem offsetsAt_straddles {grid : List BandOffset} (hgrid : ∀ g ∈ grid, g.Straddles)
    (hk : 0 < k) :
    ∃ lo hi, offsetsAt grid k = some (lo, hi) ∧ lo ≤ 0 ∧ 0 ≤ hi := by
  unfold offsetsAt
  cases hhead : grid.head? with
  | none => exact ⟨0, 0, rfl, le_rfl, le_rfl⟩
  | some first =>
    obtain ⟨rest, rfl⟩ := List.head?_eq_some_iff.mp hhead
    have hfirst := hgrid first List.mem_cons_self
    dsimp only
    split_ifs with hnear
    · have hpos : (0 : ℚ) < first.horizon := by exact_mod_cast hfirst.horizon_pos
      have ht : (0 : ℚ) ≤ k / first.horizon := by
        have hk' : (0 : ℚ) < k := by exact_mod_cast hk
        positivity
      have hdiv : checkedDiv k first.horizon = some ((k : ℚ) / first.horizon) := if_neg hpos.ne'
      refine ⟨_, _, by rw [hdiv]; rfl, ?_, ?_⟩
      · exact mul_nonpos_of_nonpos_of_nonneg hfirst.lo_le ht
      · exact mul_nonneg hfirst.le_hi ht
    · cases hfind : (windows2 (first :: rest)).find? fun w => k ≤ w.2.horizon with
      | none =>
        cases hlast : (first :: rest).getLast? with
        | none => exact ⟨0, 0, rfl, le_rfl, le_rfl⟩
        | some last =>
          have hsides := hgrid last (List.mem_of_getLast? hlast)
          exact ⟨last.lo, last.hi, rfl, hsides.lo_le, hsides.le_hi⟩
      | some w =>
        obtain ⟨a, b⟩ := w
        obtain ⟨hbefore, hreach, ha, hb⟩ := windows2_find (not_le.mp hnear) hfind
        have hwidth : (0 : ℚ) < (b.horizon - a.horizon : ℤ) := by
          exact_mod_cast sub_pos.mpr (hbefore.trans_le hreach)
        have h0 : (0 : ℚ) ≤ (k - a.horizon : ℤ) / (b.horizon - a.horizon : ℤ) := by
          apply div_nonneg _ hwidth.le
          exact_mod_cast (sub_pos.mpr hbefore).le
        have h1 : ((k - a.horizon : ℤ) : ℚ) / (b.horizon - a.horizon : ℤ) ≤ 1 := by
          rw [div_le_one hwidth]
          exact_mod_cast sub_le_sub_right hreach _
        have hdiv : checkedDiv (k - a.horizon : ℤ) (b.horizon - a.horizon : ℤ) =
            some (((k - a.horizon : ℤ) : ℚ) / (b.horizon - a.horizon : ℤ)) := if_neg hwidth.ne'
        refine ⟨_, _, by simp only [hdiv]; rfl, ?_, ?_⟩
        · exact add_mul_sub_le (hgrid a ha).lo_le (hgrid b hb).lo_le h0 h1
        · exact le_add_mul_sub (hgrid a ha).le_hi (hgrid b hb).le_hi h0 h1

theorem buildBandGrid_straddles {daily : List DailyClose} {grid : List BandOffset}
    (h : buildBandGrid math model daily = some grid) : ∀ g ∈ grid, g.Straddles := by
  obtain ⟨fits, -, h⟩ := Option.bind_eq_some_iff.mp h
  obtain ⟨offsets, hoffsets, h⟩ := Option.bind_eq_some_iff.mp h
  cases h
  intro g hg
  obtain ⟨k, hk, hoffset⟩ := exists_entry_of_mapM hoffsets (List.reduceOption_mem_iff.mp hg)
  have hpos : ∀ k ∈ bandHorizons, 0 < k := by decide
  exact bandOffset_straddles (hpos k hk) hoffset

theorem mem_buildBandGrid {daily : List DailyClose} {grid : List BandOffset}
    (h : buildBandGrid math model daily = some grid)
    (hfits : (daily.mapM fun d => do
      let r ← spineResidual math model.spineA model.spineB d
      let c ← model.cycleComponent d.date
      return DayFit.mk d.date r c) = some fits)
    (hk : k ∈ bandHorizons) (hoffset : bandOffset math model fits k = some (some offset)) :
    offset ∈ grid := by
  obtain ⟨fits', hfits', h⟩ := Option.bind_eq_some_iff.mp h
  obtain ⟨offsets, hoffsets, h⟩ := Option.bind_eq_some_iff.mp h
  obtain rfl := Option.some.inj h
  obtain rfl := Option.some.inj (hfits.symm.trans hfits')
  obtain ⟨found, hmem, hfound⟩ := exists_result_of_mapM hoffsets hk
  obtain rfl := Option.some.inj (hfound.symm.trans hoffset)
  exact List.reduceOption_mem_iff.mpr hmem

/-- `pow10` increases. -/
def DecimalMath.PowMonotone (math : DecimalMath) : Prop :=
  ∀ x y a b, x ≤ y → pow10 math x = some a → pow10 math y = some b → a ≤ b

/-- So it does when the exponential increases and the logarithm of ten is not negative. -/
theorem powMonotone_of_exp
    (hexp : ∀ x y a b, x ≤ y → math.exp x = some a → math.exp y = some b → a ≤ b)
    (hln : ∀ v, math.ln 10 = some v → 0 ≤ v) : math.PowMonotone := by
  intro x y a b hxy ha hb
  obtain ⟨v, hv, ha⟩ := Option.bind_eq_some_iff.mp ha
  obtain ⟨v', hv', hb⟩ := Option.bind_eq_some_iff.mp hb
  obtain rfl := Option.some.inj (hv.symm.trans hv')
  exact hexp _ _ a b (mul_le_mul_of_nonneg_right hxy (hln v hv)) ha hb

def RawPoint.InBand (r : RawPoint) : Prop :=
  ∃ low high, r.priceLow = some low ∧ r.priceHigh = some high ∧ low ≤ r.price ∧ r.price ≤ high

theorem compositeDay_inBand (hpow : math.PowMonotone) {grid : List BandOffset}
    (hgrid : ∀ g ∈ grid, g.Straddles) {today : ℤ} {g0 : ℚ} (hk : 0 < k) {r : RawPoint}
    (h : compositeDay math model grid today g0 k = some r) : r.InBand := by
  obtain ⟨spine, -, h⟩ := Option.bind_eq_some_iff.mp h
  obtain ⟨component, -, h⟩ := Option.bind_eq_some_iff.mp h
  obtain ⟨offsets, hoffsets, h⟩ := Option.bind_eq_some_iff.mp h
  obtain ⟨p50, hp50, h⟩ := Option.bind_eq_some_iff.mp h
  obtain ⟨p10, hp10, h⟩ := Option.bind_eq_some_iff.mp h
  obtain ⟨p90, hp90, h⟩ := Option.bind_eq_some_iff.mp h
  cases h
  obtain ⟨lo, hi, hsides, hlo, hhi⟩ := offsetsAt_straddles hgrid hk
  obtain rfl := Option.some.inj (hoffsets.symm.trans hsides)
  refine ⟨p10, p90, rfl, rfl, ?_, ?_⟩
  · exact hpow _ _ _ _ (add_le_of_nonpos_right hlo) hp10 hp50
  · exact hpow _ _ _ _ (le_add_of_nonneg_right hhi) hp50 hp90

theorem normalizeProjection_prices {realPoints pts : List OverlayPoint} {raw : List RawPoint}
    (h : normalizeProjection realPoints raw = some pts) {p : OverlayPoint} (hp : p ∈ pts) :
    ∃ r ∈ raw, p.price = r.price ∧ p.priceLow = r.priceLow ∧ p.priceHigh = r.priceHigh := by
  obtain ⟨cycles, hcycles, hpts⟩ := Option.bind_eq_some_iff.mp h
  obtain rfl : cycles.flatten = pts := Option.some.inj hpts
  obtain ⟨cycle, hcycle, points, hpoints, hp⟩ := (mem_flatten_of_mapM hcycles).mp hp
  obtain ⟨anchor, -, hpoints⟩ := Option.bind_eq_some_iff.mp hpoints
  obtain ⟨low, -, hpoints⟩ := Option.bind_eq_some_iff.mp hpoints
  obtain ⟨r, hr, hmade⟩ := exists_entry_of_mapM hpoints hp
  obtain ⟨n, -, hmade⟩ := Option.bind_eq_some_iff.mp hmade
  obtain ⟨m, -, hmade⟩ := Option.bind_eq_some_iff.mp hmade
  cases hmade
  exact ⟨r, (key_of_mem_items hcycle hr).1, rfl, rfl, rfl⟩

/-- The offsets of every horizon lie around zero, and so each projected price lies in its
band. -/
theorem projection_bands_ordered (hpow : math.PowMonotone) :
    (∀ model daily grid, buildBandGrid math model daily = some grid →
      ∀ k, 1 ≤ k → k ≤ 1458 → ∃ lo hi, offsetsAt grid k = some (lo, hi) ∧ lo ≤ 0 ∧ 0 ≤ hi) ∧
    ∀ daily realPoints useBtcAnchors pts,
      projectComposite math daily realPoints useBtcAnchors = some pts → ∀ p ∈ pts,
        ∃ low high, p.priceLow = some low ∧ p.priceHigh = some high ∧
          low ≤ p.price ∧ p.price ≤ high := by
  constructor
  · intro model daily grid hgrid k hk _
    exact offsetsAt_straddles (buildBandGrid_straddles hgrid) (by omega)
  · intro daily realPoints useBtcAnchors pts h p hp
    rcases projectComposite_cases h with
      rfl | ⟨today, fitSeries, model, bands, g0, raw, -, -, hbands, hraw, hnormal⟩
    · cases hp
    · obtain ⟨r, hr, hprice, hlow, hhigh⟩ := normalizeProjection_prices hnormal hp
      obtain ⟨k, hk, hday⟩ := exists_entry_of_mapM hraw hr
      obtain ⟨low, high, hband⟩ :=
        compositeDay_inBand hpow (buildBandGrid_straddles hbands) (horizon_pos hk) hday
      rw [hprice, hlow, hhigh]
      exact ⟨low, high, hband⟩

end Bands

/-- The functions have values where those of the reals do, and the exponential is positive. -/
structure DecimalMath.Defined (math : DecimalMath) : Prop where
  log10 : ∀ x, 0 < x → ∃ y, math.log10 x = some y
  ln_ten : ∃ y, math.ln 10 = some y
  exp : ∀ x, ∃ y, math.exp x = some y ∧ 0 < y
  powi : ∀ x k, ∃ y, math.powi x k = some y

/-- The model has an amplitude for each of its curves. -/
def FittedModel.Scaled (model : FittedModel) : Prop :=
  ∀ c ∈ model.curves, ∃ amp, getKey model.amps c.1 = some amp

theorem getKey_map_of_mem {α β : Type} (f : α → β) {entries : List (ℕ × α)} {c : ℕ × α}
    (hc : c ∈ entries) : ∃ b, getKey (entries.map fun e => (e.1, f e.2)) c.1 = some b := by
  unfold getKey
  simp only [← Option.isSome_iff_exists, Option.isSome_map, List.find?_isSome]
  exact ⟨_, List.mem_map_of_mem hc, decide_eq_true rfl⟩

theorem fitModel_scaled {math : DecimalMath} {model : FittedModel} {daily : List DailyClose}
    {useBtcAnchors : Bool} (h : fitModel math daily useBtcAnchors = some (some model)) :
    model.Scaled := by
  obtain ⟨spineA, spineB, curves, rho, rfl⟩ := fitModel_eq h
  intro c hc
  exact getKey_map_of_mem (fun curve => ((curve.map Prod.snd).max?).getD 0) hc

section Defined

variable {math : DecimalMath} {model : FittedModel} {daily : List DailyClose} {k : ℤ}

theorem cycleComponent_exists (hscaled : model.Scaled) (date : ℤ) :
    ∃ component, model.cycleComponent date = some component := by
  unfold FittedModel.cycleComponent
  split
  · dsimp only
    split_ifs
    · exact ⟨0, rfl⟩
    · refine exists_bind (exists_mapM fun c hc => ?_) fun scaled _ => ?_
      · exact exists_bind (hscaled c hc) fun amp _ => ⟨_, rfl⟩
      · split_ifs
        · exact ⟨0, rfl⟩
        · exact ⟨_, rfl⟩
  · exact ⟨0, rfl⟩

theorem logDays_exists (hmath : math.Defined) {date : ℤ} (hdate : genesis < date) :
    ∃ days, logDays math date = some days := by
  apply hmath.log10
  exact_mod_cast sub_pos.mpr hdate

theorem spineResidual_exists (hmath : math.Defined) (a b : ℚ) {d : DailyClose}
    (hdate : genesis < d.date) (hclose : 0 < d.close) :
    ∃ r, spineResidual math a b d = some r :=
  exists_bind (logDays_exists hmath hdate) fun _ _ =>
    exists_bind (hmath.log10 _ hclose) fun _ _ => ⟨_, rfl⟩

theorem pow10_exists (hmath : math.Defined) (x : ℚ) : ∃ y, pow10 math x = some y ∧ 0 < y := by
  obtain ⟨ln10, hln⟩ := hmath.ln_ten
  unfold pow10
  rw [hln]
  exact hmath.exp _

theorem bandOffset_exists (hmath : math.Defined) (fits : List DayFit) (k : ℤ) :
    ∃ offset, bandOffset math model fits k = some offset := by
  refine exists_bind (hmath.powi _ _) fun rhoK _ => ?_
  dsimp only
  split_ifs with hfew
  · exact ⟨none, rfl⟩
  · rw [length_sortBy, List.length_map] at hfew
    have hquantile : ∀ (f : DayFit × DayFit → ℚ) (q : ℚ), 0 ≤ q →
        ∃ v, quantile (sortBy id ((fits.filterMap fun d =>
          (fits.find? fun d2 => d2.date = d.date + k).map fun d2 => (d, d2)).map f)) q =
            some v :=
      fun f q hq => ⟨_, quantile_eq (samples_ne_nil hfew f) hq⟩
    refine exists_bind (hquantile _ _ (by norm_num)) fun _ _ => ?_
    refine exists_bind (hquantile _ _ (by norm_num)) fun _ _ => ?_
    refine exists_bind (hquantile _ _ (by norm_num)) fun _ _ => ?_
    refine exists_bind (hquantile _ _ (by norm_num)) fun _ _ => ?_
    refine exists_bind (hquantile _ _ (by norm_num)) fun _ _ => ?_
    exact exists_bind (hquantile _ _ (by norm_num)) fun _ _ => ⟨_, rfl⟩

theorem buildBandGrid_exists (hmath : math.Defined) (hscaled : model.Scaled)
    (hdaily : ∀ d ∈ daily, genesis < d.date ∧ 0 < d.close) :
    ∃ grid, buildBandGrid math model daily = some grid := by
  refine exists_bind (exists_mapM fun d hd => ?_) fun fits _ => ?_
  · obtain ⟨hdate, hclose⟩ := hdaily d hd
    exact exists_bind (spineResidual_exists hmath _ _ hdate hclose) fun _ _ =>
      exists_bind (cycleComponent_exists hscaled _) fun _ _ => ⟨_, rfl⟩
  · exact exists_bind (exists_mapM fun k _ => bandOffset_exists hmath fits k) fun _ _ => ⟨_, rfl⟩

theorem compositeDay_exists (hmath : math.Defined) (hscaled : model.Scaled)
    {grid : List BandOffset} (hgrid : ∀ g ∈ grid, g.Straddles) {today : ℤ} (hk : 0 < k)
    (hdate : genesis < today + k) (g0 : ℚ) :
    ∃ r, compositeDay math model grid today g0 k = some r ∧ 0 < r.price := by
  obtain ⟨days, hdays⟩ := logDays_exists hmath hdate
  obtain ⟨component, hcomponent⟩ := cycleComponent_exists hscaled (today + k)
  obtain ⟨lo, hi, hoffsets, -, -⟩ := offsetsAt_straddles hgrid hk
  obtain ⟨p50, hp50, hpos⟩ := pow10_exists hmath
    (model.spineA + model.spineB * days + component + g0 * model.rho ^ k.toNat)
  obtain ⟨p10, hp10, -⟩ := pow10_exists hmath
    (model.spineA + model.spineB * days + component + g0 * model.rho ^ k.toNat + lo)
  obtain ⟨p90, hp90, -⟩ := pow10_exists hmath
    (model.spineA + model.spineB * days + component + g0 * model.rho ^ k.toNat + hi)
  refine ⟨⟨today + k, p50, some p10, some p90, assignCycleIn (today + k) model.halvings⟩, ?_,
    hpos⟩
  simp only [compositeDay, FittedModel.spine, hdays, hcomponent, hoffsets, Option.bind_eq_bind,
    Option.bind_some, Option.pure_def, hp50, hp10, hp90]

/-- Over a whole cycle of history the composite projection is there when the model is. -/
theorem projectComposite_exists (hmath : math.Defined) {realPoints : List OverlayPoint}
    {useBtcAnchors : Bool} {earliest today : DailyClose}
    (hdaily : ∀ d ∈ daily, genesis < d.date ∧ 0 < d.close)
    (hreal : (exactArith.computeOverlay daily).result = some realPoints)
    (hfirst : (collectSeries daily).head? = some earliest)
    (hlast : (collectSeries daily).getLast? = some today)
    (hspan : cycleLengthDays ≤ today.date - earliest.date)
    (hfit : fitModel math ((collectSeries daily).filter fun d => 0 < d.close) useBtcAnchors =
      some (some model)) :
    ∃ pts, projectComposite math daily realPoints useBtcAnchors = some pts ∧ pts ≠ [] := by
  have hscaled := fitModel_scaled hfit
  have hseries : ∀ d ∈ (collectSeries daily).filter fun d => 0 < d.close,
      genesis < d.date ∧ 0 < d.close :=
    fun d hd => hdaily d (mem_of_mem_collectSeries (List.mem_filter.mp hd).1)
  obtain ⟨hdate, hclose⟩ := hdaily today (mem_of_mem_collectSeries (List.mem_of_getLast? hlast))
  obtain ⟨bands, hbands⟩ := buildBandGrid_exists hmath hscaled hseries
  obtain ⟨r, hr⟩ := spineResidual_exists hmath model.spineA model.spineB hdate hclose
  obtain ⟨component, hcomponent⟩ := cycleComponent_exists hscaled today.date
  have hday : ∀ k ∈ horizon, ∃ day,
      compositeDay math model bands today.date (r - component) k = some day ∧ 0 < day.price := by
    intro k hk
    have hpos := horizon_pos hk
    exact compositeDay_exists hmath hscaled (buildBandGrid_straddles hbands) hpos (by omega) _
  obtain ⟨raw, hraw⟩ := exists_mapM fun k hk => (hday k hk).imp fun _ h => h.1
  have hprices : ∀ day ∈ raw, 0 < day.price := by
    intro day hmem
    obtain ⟨k, hk, hmade⟩ := exists_entry_of_mapM hraw hmem
    obtain ⟨day', hmade', hpos⟩ := hday k hk
    obtain rfl := Option.some.inj (hmade.symm.trans hmade')
    exact hpos
  obtain ⟨pts, hpts⟩ :=
    DecimalArith.normalizeProjection_exists (fun d hd => (hdaily d hd).2) hreal hprices
  rw [DecimalArith.normalizeProjection_exact] at hpts
  refine ⟨pts, ?_, ?_⟩
  · unfold projectComposite
    simp only [hlast, hfirst, hfit, hbands, hr, hcomponent, hraw, hpts, Option.bind_eq_bind,
      Option.bind_some, if_neg (not_le.mpr hclose), if_neg (not_lt.mpr hspan)]
  · rintro rfl
    obtain ⟨k, hk⟩ := List.exists_mem_of_ne_nil _ horizon_ne_nil
    obtain ⟨day, hday, -⟩ := exists_result_of_mapM hraw hk
    have hperm := (normalizeProjection_points hpts).1
    rw [List.map_nil, List.nil_perm, List.map_eq_nil_iff] at hperm
    rw [hperm] at hday
    cases hday

end Defined

section SwingingSeries

/-- Logarithms to two decimals and an exponential that is right at zero. -/
def roundedMath : DecimalMath where
  log10 x := some ((Nat.log 10 (x.num.toNat ^ 100) : ℚ) / 100)
  ln _ := some (2302585 / 1000000)
  exp x := some (if x < 0 then 1 / (1 - x) else 1 + x)
  powd _ _ := some (9961566 / 10000000)
  powi x k := some (x ^ k.toNat)

theorem roundedMath_powMonotone : roundedMath.PowMonotone := by
  apply powMonotone_of_exp
  · intro x y a b hxy ha hb
    obtain rfl := Option.some.inj ha
    obtain rfl := Option.some.inj hb
    split_ifs with hx hy hy
    · exact one_div_le_one_div_of_le (by linarith) (by linarith)
    · have hle : 1 / (1 - x) ≤ 1 := by
        rw [div_le_one (by linarith)]
        linarith
      linarith
    · linarith
    · linarith
  · intro v hv
    obtain rfl := Option.some.inj hv
    norm_num

theorem roundedMath_defined : roundedMath.Defined where
  log10 _ _ := ⟨_, rfl⟩
  ln_ten := ⟨_, rfl⟩
  exp x := by
    refine ⟨_, rfl, ?_⟩
    split_ifs with hx
    · exact one_div_pos.mpr (by linarith)
    · linarith
  powi _ _ := ⟨_, rfl⟩

/-- A close four years back, and four months of a price that swings between one and ten. -/
def swingingCloses : List DailyClose :=
  ⟨NaiveDate.fromYmd 2020 4 30, 1⟩ :: (List.range 130).map fun i =>
    ⟨NaiveDate.fromYmd 2023 12 24 + i, if i % 2 = 0 then 1 else 10⟩

def swingingModel : FittedModel :=
  ⟨-99521 / 8042, 13850 / 4021, [], [], projectedHalvingDates, 9961566 / 10000000⟩

theorem swingingModel_fit :
    fitModel roundedMath ((collectSeries swingingCloses).filter fun d => 0 < d.close) false =
      some (some swingingModel) := by
  decide +kernel

def swingingFits : List DayFit := swingingCloses.map fun d =>
  ⟨d.date, (spineResidual roundedMath swingingModel.spineA swingingModel.spineB d).getD 0, 0⟩

/-- A hundred pairs of days are thirty days apart, and there the band has a width. -/
theorem swingingFits_offset : ∃ offset,
    bandOffset roundedMath swingingModel swingingFits 30 = some (some offset) ∧
      offset.lo < 0 ∧ 0 < offset.hi := by
  have hsides : ∃ found ∈ bandOffset roundedMath swingingModel swingingFits 30,
      ∃ offset ∈ found, offset.lo < 0 ∧ 0 < offset.hi := by
    decide +kernel
  obtain ⟨found, hfound, offset, hoffset, hsides⟩ := hsides
  exact ⟨offset, hfound.trans (congrArg some hoffset), hsides⟩

theorem swingingCloses_fits :
    (((collectSeries swingingCloses).filter fun d => 0 < d.close).mapM fun d => do
      let r ← spineResidual roundedMath swingingModel.spineA swingingModel.spineB d
      let c ← swingingModel.cycleComponent d.date
      return DayFit.mk d.date r c) = some swingingFits := by
  decide +kernel

/-- The bands of the swinging price, one of which has a width. -/
theorem swingingCloses_bands_ordered : ∃ realPoints pts,
    computeOverlay swingingCloses = some realPoints ∧
      (∃ grid, buildBandGrid roundedMath swingingModel
          ((collectSeries swingingCloses).filter fun d => 0 < d.close) = some grid ∧
        ∃ offset ∈ grid, offset.lo < 0 ∧ 0 < offset.hi) ∧
      projectComposite roundedMath swingingCloses realPoints false = some pts ∧ pts ≠ [] ∧
      ∀ p ∈ pts, ∃ low high, p.priceLow = some low ∧ p.priceHigh = some high ∧
        low ≤ p.price ∧ p.price ≤ high := by
  have hdaily : ∀ d ∈ swingingCloses, genesis < d.date ∧ 0 < d.close := by decide +kernel
  have hfirst : (collectSeries swingingCloses).head? = some ⟨NaiveDate.fromYmd 2020 4 30, 1⟩ := by
    decide +kernel
  have hlast : (collectSeries swingingCloses).getLast? =
      some ⟨NaiveDate.fromYmd 2024 5 1, 10⟩ := by
    decide +kernel
  obtain ⟨realPoints, hreal⟩ := computeOverlay_exists fun d hd => (hdaily d hd).2
  have hexact := hreal
  rw [← DecimalArith.computeOverlay_exact] at hexact
  obtain ⟨pts, hproject, hne⟩ := projectComposite_exists roundedMath_defined hdaily hexact hfirst
    hlast (by decide) swingingModel_fit
  obtain ⟨grid, hgrid⟩ := buildBandGrid_exists roundedMath_defined
    (fitModel_scaled swingingModel_fit) fun d hd =>
      hdaily d (mem_of_mem_collectSeries (List.mem_filter.mp hd).1)
  obtain ⟨offset, hoffset, hsides⟩ := swingingFits_offset
  have hmem := mem_buildBandGrid hgrid swingingCloses_fits (by decide) hoffset
  exact ⟨realPoints, pts, hreal, ⟨grid, hgrid, offset, hmem, hsides⟩, hproject, hne,
    (projection_bands_ordered roundedMath_powMonotone).2 swingingCloses realPoints false pts
      hproject⟩

end SwingingSeries
end CryptoCollector.Collectors

import CryptoCollector.Collectors.DecimalProjection
import CryptoCollector.Foundations.ScaledRounding

/-!
# What the overlay divides by

The overlay divides by the first and the least close of each cycle, the projections by
the anchor and the low a projected cycle has with them.
-/

namespace CryptoCollector.Collectors
open Foundations

namespace DecimalArith

variable {arith : DecimalArith} {daily : List DailyClose}

section Quotients

variable {α β : Type} {price : α → ℚ} {make : α → ℚ → ℚ → β} {anchor low : ℚ} {l : List α}

def quotients (arith : DecimalArith) (make : ℚ → ℚ → β) (price anchor low : ℚ) :
    Dividing ℚ β := do
  let normHalving ← arith.div price anchor
  let normCycleLow ← arith.div price low
  return make normHalving normCycleLow

theorem safe_quotients_iff {make : ℚ → ℚ → β} {price : ℚ} :
    (arith.quotients make price anchor low).Safe ↔
      anchor ≠ 0 ∧ (arith.checkedDiv price anchor ≠ none → low ≠ 0) := by
  simp only [quotients, Dividing.safe_bind_iff, safe_div_iff, result_div, Dividing.safe_pure,
    implies_true, and_true]
  apply and_congr_right
  intro _
  cases arith.checkedDiv price anchor with
  | none => simp
  | some n => simp

theorem result_quotients_ne_none_iff {make : ℚ → ℚ → β} {price : ℚ} :
    (arith.quotients make price anchor low).result ≠ none ↔
      arith.checkedDiv price anchor ≠ none ∧ arith.checkedDiv price low ≠ none := by
  simp only [quotients, Dividing.result_bind, result_div, Dividing.result_pure]
  cases arith.checkedDiv price anchor with
  | none => simp
  | some n =>
    cases arith.checkedDiv price low with
    | none => simp
    | some m => simp

/-- All prices of a list are divided by the same two, so the first one tells. -/
theorem safe_mapM_quotients_iff (x : α) :
    (((x :: l).mapM fun a => arith.quotients (make a) (price a) anchor low).Safe ↔
      anchor ≠ 0 ∧ (arith.checkedDiv (price x) anchor ≠ none → low ≠ 0)) := by
  rw [Dividing.safe_mapM_iff]
  simp only [safe_quotients_iff]
  constructor
  · intro hall
    exact hall [] x l rfl (by simp)
  · rintro ⟨hanchor, hlow⟩ pre a post heq hpre
    refine ⟨hanchor, fun _ => hlow ?_⟩
    cases pre with
    | nil =>
      obtain ⟨rfl, -⟩ := List.cons.inj heq
      assumption
    | cons first pre =>
      obtain ⟨rfl, -⟩ := List.cons.inj heq
      exact (result_quotients_ne_none_iff.mp (hpre _ List.mem_cons_self)).1

theorem result_mapM_quotients_ne_none_iff :
    (l.mapM fun a => arith.quotients (make a) (price a) anchor low).result ≠ none ↔
      arith.Fits (l.map price) (some anchor) (some low) := by
  rw [Dividing.result_mapM_ne_none]
  simp only [result_quotients_ne_none_iff, Fits, Option.mem_def, Option.some.injEq, forall_eq',
    List.forall_mem_map]

end Quotients

section Overlay

variable {cycle : Group ℤ CycleDay} {pts : List OverlayPoint}

def realPoint (cycle : Group ℤ CycleDay) (first p : CycleDay) (normHalving normCycleLow : ℚ) :
    OverlayPoint where
  cycleNumber := cycle.key
  halvingDate := cycle.first.assignment.halvingDate
  daysSinceHalving := p.assignment.daysSinceHalving
  ts := p.date
  price := p.price
  normHalving := normHalving
  normCycleLow := normCycleLow
  halvingBaselineApproximate := decide (first.assignment.daysSinceHalving ≠ 0)
  projected := false
  priceLow := none
  priceHigh := none

theorem overlayCycle_eq (arith : DecimalArith) (cycle : Group ℤ CycleDay) :
    ∃ first rest low,
      sortBy (fun p => p.assignment.daysSinceHalving) cycle.items = first :: rest ∧
        (pricesOf cycle).head? = some first.price ∧ (pricesOf cycle).min? = some low ∧
        arith.overlayCycle cycle = (first :: rest).mapM fun p =>
          arith.quotients (realPoint cycle first p) p.price first.price low := by
  cases hpoints : sortBy (fun p => p.assignment.daysSinceHalving) cycle.items with
  | nil =>
    have hmem : cycle.first ∈ sortBy (fun p => p.assignment.daysSinceHalving) cycle.items :=
      (mem_sortBy _).mpr List.mem_cons_self
    rw [hpoints] at hmem
    cases hmem
  | cons first rest =>
    have hprices : pricesOf cycle = first.price :: rest.map CycleDay.price := by
      rw [pricesOf, hpoints, List.map_cons]
    obtain ⟨low, hlow⟩ : ∃ low, (pricesOf cycle).min? = some low := by
      rw [hprices]
      exact ⟨_, List.min?_cons⟩
    refine ⟨first, rest, low, rfl, by rw [hprices, List.head?_cons], hlow, ?_⟩
    rw [pricesOf, hpoints] at hlow
    simp only [overlayCycle, hpoints, hlow, List.head?_cons, Dividing.lift_some_bind]
    rfl

theorem result_overlayCycle_ne_none_iff :
    (arith.overlayCycle cycle).result ≠ none ↔
      arith.Fits (pricesOf cycle) (pricesOf cycle).head? (pricesOf cycle).min? := by
  obtain ⟨first, rest, low, hpoints, hfirst, hlow, hcycle⟩ := overlayCycle_eq arith cycle
  rw [hcycle, hfirst, hlow, result_mapM_quotients_ne_none_iff, pricesOf, hpoints]

/-- The first close divided by itself is one, so the least close is divided by. -/
theorem safe_overlayCycle_iff (hdecimal : ∀ price ∈ pricesOf cycle, arith.IsDecimal price) :
    (arith.overlayCycle cycle).Safe ↔
      ∀ first ∈ (pricesOf cycle).head?, ∀ low ∈ (pricesOf cycle).min?, first ≠ 0 ∧ low ≠ 0 := by
  obtain ⟨first, rest, low, -, hfirst, hlow, hcycle⟩ := overlayCycle_eq arith cycle
  rw [hcycle, hfirst, hlow, safe_mapM_quotients_iff]
  simp only [Option.mem_def, Option.some.injEq, forall_eq']
  apply and_congr_right
  intro hne
  rw [arith.checkedDiv_self _ (hdecimal _ (List.mem_of_mem_head? hfirst)) hne]
  simp

theorem overlayCycle_points (hdecimal : ∀ price ∈ pricesOf cycle, arith.IsDecimal price)
    (h : (arith.overlayCycle cycle).result = some pts) :
    (∀ p ∈ pts, p.cycleNumber = cycle.key) ∧ pts.map OverlayPoint.price = pricesOf cycle ∧
      ∀ p ∈ pts.head?, p.normHalving = 1 := by
  obtain ⟨first, rest, low, hpoints, hfirst, hlow, hcycle⟩ := overlayCycle_eq arith cycle
  rw [hcycle, Dividing.result_mapM] at h
  have hentry : ∀ p ∈ first :: rest, ∀ point,
      (arith.quotients (realPoint cycle first p) p.price first.price low).result = some point →
        point.price = p.price ∧ point.cycleNumber = cycle.key ∧
          arith.checkedDiv p.price first.price = some point.normHalving := by
    intro p _ point hpoint
    simp only [quotients, Dividing.result_bind, result_div, Dividing.result_pure,
      Option.bind_eq_some_iff] at hpoint
    obtain ⟨n, hn, m, -, hpoint⟩ := hpoint
    cases hpoint
    exact ⟨rfl, rfl, hn⟩
  refine ⟨?_, ?_, ?_⟩
  · intro point hpoint
    obtain ⟨p, hp, hmade⟩ := exists_entry_of_mapM h hpoint
    exact (hentry p hp point hmade).2.1
  · rw [pricesOf, hpoints]
    exact map_eq_of_mapM (fun p hp point hpoint => (hentry p hp point hpoint).1) h
  · intro point hhead
    obtain ⟨y, ys, hy, -, rfl⟩ := mapM_cons_eq_some.mp h
    obtain rfl : y = point := Option.some.inj hhead
    have hnorm := (hentry first List.mem_cons_self y hy).2.2
    have hne : first.price ≠ 0 := by
      intro hzero
      rw [hzero, arith.checkedDiv_zero] at hnorm
      cases hnorm
    rw [arith.checkedDiv_self _ (hdecimal _ (List.mem_of_mem_head? hfirst)) hne] at hnorm
    exact (Option.some.inj hnorm).symm

theorem isDecimal_pricesOf (hdaily : ∀ d ∈ daily, arith.IsDecimal d.close)
    (hcycle : cycle ∈ groupBy (fun p => p.assignment.cycleNumber) (cycleDays daily)) :
    ∀ price ∈ pricesOf cycle, arith.IsDecimal price := by
  intro price hprice
  obtain ⟨day, hday, rfl⟩ := List.mem_map.mp hprice
  obtain ⟨hmem, -⟩ := key_of_mem_items hcycle ((mem_sortBy _).mp hday)
  obtain ⟨d, hd, hassign⟩ := List.mem_filterMap.mp hmem
  obtain ⟨a, -, rfl⟩ := Option.map_eq_some_iff.mp hassign
  exact hdaily d ((mem_sortBy _).mp hd)

theorem isDecimal_closesOf (hdaily : ∀ d ∈ daily, arith.IsDecimal d.close) {n : ℤ} {price : ℚ}
    (hprice : price ∈ closesOf daily n) : arith.IsDecimal price := by
  obtain ⟨closes, hcloses, hmem⟩ := List.mem_flatMap.mp hprice
  obtain ⟨cycle, hcycle, rfl⟩ := List.mem_map.mp (List.mem_filter.mp hcloses).1
  exact isDecimal_pricesOf hdaily hcycle price hmem

theorem safe_computeOverlay_iff (hdaily : ∀ d ∈ daily, arith.IsDecimal d.close) :
    (arith.computeOverlay daily).Safe ↔ arith.OverlayCondition daily := by
  rw [computeOverlay, Dividing.safe_bind_iff]
  simp only [Dividing.safe_pure, implies_true, and_true, Dividing.safe_mapM_iff,
    result_overlayCycle_ne_none_iff]
  unfold OverlayCondition cycleCloses
  constructor
  · intro hall pre cycle post heq hpre
    obtain ⟨pre', rest', hgroups, rfl, hrest⟩ := List.map_eq_append_iff.mp heq
    obtain ⟨cycle', post', rfl, rfl, rfl⟩ := List.map_eq_cons_iff.mp hrest
    rw [List.forall_mem_map] at hpre
    have hcycle : cycle' ∈ groupBy (fun p => p.assignment.cycleNumber) (cycleDays daily) := by
      rw [hgroups]
      exact List.mem_append_right _ List.mem_cons_self
    exact (safe_overlayCycle_iff (isDecimal_pricesOf hdaily hcycle)).mp
      (hall pre' cycle' post' hgroups hpre)
  · intro hall pre cycle post heq hpre
    have hcycle : cycle ∈ groupBy (fun p => p.assignment.cycleNumber) (cycleDays daily) := by
      rw [heq]
      exact List.mem_append_right _ List.mem_cons_self
    rw [safe_overlayCycle_iff (isDecimal_pricesOf hdaily hcycle)]
    apply hall (pre.map fun c => (c.key, pricesOf c)) (cycle.key, pricesOf cycle)
      (post.map fun c => (c.key, pricesOf c))
    · rw [heq, List.map_append, List.map_cons]
    · rw [List.forall_mem_map]
      exact hpre

theorem result_computeOverlay_ne_none_iff :
    (arith.computeOverlay daily).result ≠ none ↔
      ∀ cycle ∈ cycleCloses daily, arith.Fits cycle.2 cycle.2.head? cycle.2.min? := by
  have hmap : (arith.computeOverlay daily).result =
      ((groupBy (fun p => p.assignment.cycleNumber) (cycleDays daily)).mapM
        arith.overlayCycle).result.map List.flatten := by
    rw [computeOverlay, Dividing.result_bind]
    cases ((groupBy (fun p => p.assignment.cycleNumber) (cycleDays daily)).mapM
      arith.overlayCycle).result with
    | none => rfl
    | some cycles => rfl
  rw [hmap, Ne, Option.map_eq_none_iff, ← Ne, Dividing.result_mapM_ne_none, cycleCloses,
    List.forall_mem_map]
  simp only [result_overlayCycle_ne_none_iff]

theorem computeOverlay_cycle (hdaily : ∀ d ∈ daily, arith.IsDecimal d.close)
    (h : (arith.computeOverlay daily).result = some pts) (n : ℤ) :
    (pts.filter fun p => p.cycleNumber = n).map OverlayPoint.price = closesOf daily n ∧
      ∀ p ∈ (pts.filter fun p => p.cycleNumber = n).head?, p.normHalving = 1 := by
  rw [computeOverlay, Dividing.result_bind, Dividing.result_mapM, Option.bind_eq_some_iff] at h
  obtain ⟨cycles, hcycles, hpts⟩ := h
  obtain rfl := Option.some.inj hpts
  clear hpts
  have hall : ∀ cycle ∈ groupBy (fun p => p.assignment.cycleNumber) (cycleDays daily),
      ∀ price ∈ pricesOf cycle, arith.IsDecimal price :=
    fun cycle hcycle => isDecimal_pricesOf hdaily hcycle
  unfold closesOf cycleCloses
  generalize groupBy (fun p => p.assignment.cycleNumber) (cycleDays daily) = groups at hcycles hall
  induction groups generalizing cycles with
  | nil =>
    obtain rfl : [] = cycles := Option.some.inj hcycles
    simp
  | cons cycle groups ih =>
    obtain ⟨points, rest, hpoints, hrest, rfl⟩ := mapM_cons_eq_some.mp hcycles
    obtain ⟨hnumber, hprices, hfirst⟩ := overlayCycle_points (hall cycle List.mem_cons_self) hpoints
    obtain ⟨ihprices, ihfirst⟩ :=
      ih rest hrest fun cycle hcycle => hall cycle (List.mem_cons_of_mem _ hcycle)
    rw [List.flatten_cons, List.filter_append, List.map_cons]
    by_cases hkey : cycle.key = n
    · have hpoints' : points.filter (fun p => p.cycleNumber = n) = points := by
        rw [List.filter_eq_self]
        intro p hp
        simp [hnumber p hp, hkey]
      rw [hpoints', List.filter_cons_of_pos (by simpa using hkey), List.flatMap_cons,
        List.map_append, hprices, ihprices]
      refine ⟨rfl, ?_⟩
      intro p hp
      cases points with
      | nil => exact ihfirst p hp
      | cons first points => exact hfirst p hp
    · have hpoints' : points.filter (fun p => p.cycleNumber = n) = [] := by
        rw [List.filter_eq_nil_iff]
        intro p hp
        simp [hnumber p hp, hkey]
      rw [hpoints', List.filter_cons_of_neg (by simpa using hkey), List.nil_append]
      exact ⟨ihprices, ihfirst⟩

end Overlay

section Projection

variable {pts : List OverlayPoint} {raw : List RawPoint}

def projectedPoint (cycle : Group ℤ RawPoint) (p : RawPoint) (normHalving normCycleLow : ℚ) :
    OverlayPoint where
  cycleNumber := cycle.key
  halvingDate := p.assignment.halvingDate
  daysSinceHalving := p.assignment.daysSinceHalving
  ts := p.ts
  price := p.price
  normHalving := normHalving
  normCycleLow := normCycleLow
  halvingBaselineApproximate := true
  projected := true
  priceLow := p.priceLow
  priceHigh := p.priceHigh

theorem min?_append (xs : List ℚ) {ys : List ℚ} {low : ℚ} (hlow : ys.min? = some low) :
    (xs ++ ys).min? = some (xs.min?.elim low fun x => min x low) := by
  cases hxs : xs.min? with
  | none =>
    rw [List.min?_eq_none_iff.mp hxs, List.nil_append, hlow]
    rfl
  | some x =>
    rw [List.min?_eq_some_iff] at hxs hlow ⊢
    obtain ⟨hx, hxmin⟩ := hxs
    obtain ⟨hl, hlmin⟩ := hlow
    constructor
    · rcases min_choice x low with hmin | hmin
      · simp [hmin, hx]
      · simp [hmin, hl]
    · intro y hy
      rcases List.mem_append.mp hy with hy | hy
      · exact (min_le_left _ _).trans (hxmin y hy)
      · exact (min_le_right _ _).trans (hlmin y hy)

/-- The anchor is recovered from the first real point of the cycle, by a division by one. -/
theorem cycleAnchor_spec (hdaily : ∀ d ∈ daily, arith.IsDecimal d.close)
    (h : (arith.computeOverlay daily).result = some pts) (cycle : Group ℤ RawPoint) :
    (arith.cycleAnchor pts cycle).Safe ∧
      (arith.cycleAnchor pts cycle).result = anchorOf daily cycle := by
  obtain ⟨hprices, hfirst⟩ := computeOverlay_cycle hdaily h cycle.key
  unfold cycleAnchor anchorOf
  rw [← hprices, List.head?_map, ← List.head?_filter]
  cases hhead : (pts.filter fun p => p.cycleNumber = cycle.key).head? with
  | none => exact ⟨Dividing.safe_lift _, rfl⟩
  | some rp =>
    have hnorm := hfirst rp hhead
    have hdecimal : arith.IsDecimal rp.price := by
      have hmem : rp.price ∈ closesOf daily cycle.key := by
        rw [← hprices]
        exact List.mem_map_of_mem (List.mem_of_mem_head? hhead)
      exact isDecimal_closesOf hdaily hmem
    refine ⟨?_, ?_⟩
    · rw [safe_div_iff, hnorm]
      exact one_ne_zero
    · rw [result_div, hnorm, arith.checkedDiv_one _ hdecimal]
      rfl

theorem normalizeCycle_eq (hdaily : ∀ d ∈ daily, arith.IsDecimal d.close)
    (h : (arith.computeOverlay daily).result = some pts) (cycle : Group ℤ RawPoint) :
    ∃ anchor low, anchorOf daily cycle = some anchor ∧ lowOf daily cycle = some low ∧
      ((arith.normalizeCycle pts cycle).Safe ↔ (cycle.items.mapM fun p =>
        arith.quotients (projectedPoint cycle p) p.price anchor low).Safe) ∧
      (arith.normalizeCycle pts cycle).result = (cycle.items.mapM fun p =>
        arith.quotients (projectedPoint cycle p) p.price anchor low).result := by
  obtain ⟨hsafe, hresult⟩ := cycleAnchor_spec hdaily h cycle
  obtain ⟨anchor, hanchor⟩ : ∃ anchor, anchorOf daily cycle = some anchor := by
    apply Option.ne_none_iff_exists'.mp
    simp [anchorOf, firstMin_eq_none_iff, Group.items]
  obtain ⟨projectedLow, hprojected⟩ :
      ∃ projectedLow, (cycle.items.map RawPoint.price).min? = some projectedLow :=
    ⟨_, List.min?_cons⟩
  have hlow := min?_append (closesOf daily cycle.key) hprojected
  refine ⟨anchor, _, hanchor, hlow, ?_⟩
  rw [← (computeOverlay_cycle hdaily h cycle.key).1]
  have hnormalize : arith.normalizeCycle pts cycle = arith.cycleAnchor pts cycle >>= fun a =>
      cycle.items.mapM fun p => arith.quotients (projectedPoint cycle p) p.price a
        (((pts.filter fun p => p.cycleNumber = cycle.key).map OverlayPoint.price).min?.elim
          projectedLow fun x => min x projectedLow) := by
    simp only [normalizeCycle, hprojected, Dividing.lift_some_bind]
    rfl
  rw [hnormalize, Dividing.safe_bind_iff, Dividing.result_bind, hresult, hanchor]
  refine ⟨?_, rfl⟩
  simp only [hsafe, true_and, Option.some.injEq, forall_eq']

theorem safe_normalizeCycle_iff (hdaily : ∀ d ∈ daily, arith.IsDecimal d.close)
    (h : (arith.computeOverlay daily).result = some pts) (cycle : Group ℤ RawPoint) :
    (arith.normalizeCycle pts cycle).Safe ↔
      ∀ anchor ∈ anchorOf daily cycle, ∀ low ∈ lowOf daily cycle,
        anchor ≠ 0 ∧ (arith.checkedDiv cycle.first.price anchor ≠ none → low ≠ 0) := by
  obtain ⟨anchor, low, hanchor, hlow, hsafe, -⟩ := normalizeCycle_eq hdaily h cycle
  rw [hsafe, hanchor, hlow, Group.items, safe_mapM_quotients_iff]
  simp only [Option.mem_def, Option.some.injEq, forall_eq']

theorem result_normalizeCycle_ne_none_iff (hdaily : ∀ d ∈ daily, arith.IsDecimal d.close)
    (h : (arith.computeOverlay daily).result = some pts) (cycle : Group ℤ RawPoint) :
    (arith.normalizeCycle pts cycle).result ≠ none ↔
      arith.Fits (cycle.items.map RawPoint.price) (anchorOf daily cycle) (lowOf daily cycle) := by
  obtain ⟨anchor, low, hanchor, hlow, -, hresult⟩ := normalizeCycle_eq hdaily h cycle
  rw [hresult, hanchor, hlow, result_mapM_quotients_ne_none_iff]

/-- On the real points of the overlay, the normalization divides by the anchor and the
low of each projected cycle. -/
theorem safe_normalizeProjection_iff (hdaily : ∀ d ∈ daily, arith.IsDecimal d.close)
    (h : (arith.computeOverlay daily).result = some pts) (raw : List RawPoint) :
    (arith.normalizeProjection pts raw).Safe ↔ arith.ProjectionCondition daily raw := by
  rw [normalizeProjection, Dividing.safe_bind_iff]
  simp only [Dividing.safe_pure, implies_true, and_true, Dividing.safe_mapM_iff,
    result_normalizeCycle_ne_none_iff hdaily h, safe_normalizeCycle_iff hdaily h]
  rfl

end Projection

section Replay

variable {today : DailyClose} {basePrice : ℚ} {ref : ℤ × ℚ}

theorem safe_replayDay_iff : (arith.replayDay today basePrice ref.1 ref.2).Safe ↔
    (arith.checkedMul today.close ref.2 ≠ none → basePrice ≠ 0) := by
  simp only [replayDay, Dividing.safe_bind_iff, safe_mul, safe_div_iff, result_mul,
    Dividing.safe_pure, implies_true, and_true, true_and]
  cases arith.checkedMul today.close ref.2 with
  | none => simp
  | some scaled => simp

theorem result_replayDay (h : arith.checkedMul today.close ref.2 = none) :
    (arith.replayDay today basePrice ref.1 ref.2).result = none := by
  simp only [replayDay, Dividing.result_bind, result_mul, h]
  rfl

theorem safe_replay_iff (refs : List (ℤ × ℚ)) :
    (refs.mapM fun ref => arith.replayDay today basePrice ref.1 ref.2).Safe ↔
      ∀ ref ∈ refs.head?, arith.checkedMul today.close ref.2 ≠ none → basePrice ≠ 0 := by
  rw [Dividing.safe_mapM_iff]
  simp only [safe_replayDay_iff]
  constructor
  · intro hall ref href
    obtain ⟨rest, rfl⟩ := List.head?_eq_some_iff.mp href
    exact hall [] ref rest rfl (by simp)
  · intro hfirst pre ref post heq hpre hscaled
    cases pre with
    | nil => exact hfirst ref (by rw [heq]; rfl) hscaled
    | cons first pre =>
      apply hfirst first (by rw [heq]; rfl)
      intro hnone
      exact hpre first List.mem_cons_self (result_replayDay hnone)

theorem safe_replayPath_iff :
    (arith.replayPath daily).Safe ↔ arith.BaseCondition daily := by
  unfold replayPath BaseCondition
  simp only
  cases (collectSeries daily).getLast? with
  | none => simp
  | some today =>
    cases (collectSeries daily).head? with
    | none => simp
    | some earliest =>
      simp only [Option.mem_def, Option.some.injEq, forall_eq']
      split_ifs with hshort
      · simp [not_le.mpr hshort]
      · cases priceAtOrBefore (collectSeries daily) (today.date - cycleLengthDays) with
        | none => simp
        | some basePrice =>
          simp only [safe_replay_iff, Option.mem_def, Option.some.injEq, forall_eq',
            not_lt.mp hshort, true_implies]

theorem safe_projectCycleRepeat_iff {pts : List OverlayPoint}
    (hdaily : ∀ d ∈ daily, arith.IsDecimal d.close)
    (h : (arith.computeOverlay daily).result = some pts) :
    (arith.projectCycleRepeat daily pts).Safe ↔ arith.BaseCondition daily ∧
      ∀ raw, (arith.replayPath daily).result = some raw → arith.ProjectionCondition daily raw := by
  rw [projectCycleRepeat, Dividing.safe_bind_iff, safe_replayPath_iff]
  simp only [safe_normalizeProjection_iff hdaily h]

end Replay

theorem safe_projectComposite_iff {math : DecimalMath} {pts : List OverlayPoint}
    {useBtcAnchors : Bool} (hdaily : ∀ d ∈ daily, arith.IsDecimal d.close)
    (h : (arith.computeOverlay daily).result = some pts) :
    (arith.projectComposite math daily pts useBtcAnchors).Safe ↔
      ∀ raw, (arith.compositePath math daily useBtcAnchors).result = some raw →
        arith.ProjectionCondition daily raw := by
  rw [projectComposite, Dividing.safe_bind_iff]
  simp only [safe_compositePath, true_and, safe_normalizeProjection_iff hdaily h]

/-- The overlay divides by no zero, nor do the projections on what it returns. -/
def DivisionsSafe (arith : DecimalArith) (math : DecimalMath) (daily : List DailyClose) : Prop :=
  (arith.computeOverlay daily).Safe ∧ ∀ pts, (arith.computeOverlay daily).result = some pts →
    (arith.projectCycleRepeat daily pts).Safe ∧
      ∀ useBtcAnchors, (arith.projectComposite math daily pts useBtcAnchors).Safe

/-- The divisions are safe exactly when no cycle begins with a zero close or has one as
its least, the replay does not start from a zero close, and no projected cycle has a
zero as its anchor or low. -/
theorem divisionsSafe_iff (arith : DecimalArith) (math : DecimalMath) (daily : List DailyClose)
    (hdaily : ∀ d ∈ daily, arith.IsDecimal d.close) :
    arith.DivisionsSafe math daily ↔ arith.OverlayCondition daily ∧
      ((∀ cycle ∈ cycleCloses daily, arith.Fits cycle.2 cycle.2.head? cycle.2.min?) →
        arith.BaseCondition daily ∧
        (∀ raw, (arith.replayPath daily).result = some raw →
          arith.ProjectionCondition daily raw) ∧
        ∀ useBtcAnchors raw, (arith.compositePath math daily useBtcAnchors).result = some raw →
          arith.ProjectionCondition daily raw) := by
  rw [DivisionsSafe, safe_computeOverlay_iff hdaily, ← result_computeOverlay_ne_none_iff]
  apply and_congr_right
  intro _
  constructor
  · intro hall hcomputed
    obtain ⟨pts, hpts⟩ := Option.ne_none_iff_exists'.mp hcomputed
    obtain ⟨hreplay, hcomposite⟩ := hall pts hpts
    obtain ⟨hbase, hpath⟩ := (safe_projectCycleRepeat_iff hdaily hpts).mp hreplay
    exact ⟨hbase, hpath, fun useBtcAnchors =>
      (safe_projectComposite_iff hdaily hpts).mp (hcomposite useBtcAnchors)⟩
  · intro hall pts hpts
    obtain ⟨hbase, hpath, hcomposite⟩ := hall (by simp [hpts])
    exact ⟨(safe_projectCycleRepeat_iff hdaily hpts).mpr ⟨hbase, hpath⟩, fun useBtcAnchors =>
      (safe_projectComposite_iff hdaily hpts).mpr (hcomposite useBtcAnchors)⟩

end DecimalArith

section Decimals

/-- `Decimal`: mantissas of 96 bits, up to 28 digits behind the point. -/
def decimal96 : DecimalArith where
  IsDecimal := Scaled (2 ^ 96) 28
  checkedAdd x y := roundScaled (2 ^ 96) 28 (x + y)
  checkedSub x y := roundScaled (2 ^ 96) 28 (x - y)
  checkedMul x y := roundScaled (2 ^ 96) 28 (x * y)
  checkedDiv x y := if y = 0 then none else roundScaled (2 ^ 96) 28 (x / y)
  checkedDiv_zero _ := if_pos rfl
  checkedDiv_self x _ hne := by
    rw [if_neg hne, div_self hne]
    exact roundScaled_of_scaled ⟨1, 0, by norm_num, by norm_num, by norm_num⟩
  checkedDiv_one x hx := by
    rw [if_neg one_ne_zero, div_one]
    exact roundScaled_of_scaled hx

/-- Mathematics that is never asked for. -/
def noMath : DecimalMath :=
  ⟨fun _ => none, fun _ => none, fun _ => none, fun _ _ => none, fun _ _ => none⟩

/-- The halving of 2024 and the day after. -/
def twoCloses : List DailyClose :=
  [⟨NaiveDate.fromYmd 2024 4 20, 64994⟩, ⟨NaiveDate.fromYmd 2024 4 21, 64926⟩]

theorem projectionCondition_nil (arith : DecimalArith) (daily : List DailyClose) :
    arith.ProjectionCondition daily [] := by
  intro pre cycle post heq
  cases pre <;> cases heq

/-- A short series has an overlay and no projections. -/
theorem twoCloses_divide_safely : decimal96.DivisionsSafe noMath twoCloses := by
  have hdecimal : ∀ d ∈ twoCloses, decimal96.IsDecimal d.close := by
    intro d hd
    rcases List.mem_pair.mp hd with rfl | rfl
    · exact ⟨64994, 0, by norm_num, by norm_num, by norm_num⟩
    · exact ⟨64926, 0, by norm_num, by norm_num, by norm_num⟩
  have hcloses : cycleCloses twoCloses = [(4, [64994, 64926])] := by decide +kernel
  have hreplay : (decimal96.replayPath twoCloses).result = some [] := by decide +kernel
  have hcomposite : ∀ useBtcAnchors,
      (decimal96.compositePath noMath twoCloses useBtcAnchors).result = some [] := by decide +kernel
  apply (DecimalArith.divisionsSafe_iff decimal96 noMath twoCloses hdecimal).mpr
  refine ⟨?_, fun _ => ⟨?_, ?_, ?_⟩⟩
  · intro pre cycle post heq _ first hfirst low hlow
    rw [hcloses] at heq
    obtain ⟨rfl, rfl, rfl⟩ : pre = [] ∧ cycle = (4, [64994, 64926]) ∧ post = [] := by
      cases pre with
      | nil => simpa using heq.symm
      | cons head pre => simp at heq
    obtain rfl : 64994 = first := Option.some.inj hfirst
    obtain rfl : 64926 = low := by
      have hmin : ([64994, 64926] : List ℚ).min? = some 64926 := by decide +kernel
      exact Option.some.inj (hmin.symm.trans hlow)
    norm_num
  · intro today htoday earliest hearliest hlong
    have hlast : (collectSeries twoCloses).getLast? =
        some ⟨NaiveDate.fromYmd 2024 4 21, 64926⟩ := by decide +kernel
    have hfirst : (collectSeries twoCloses).head? =
        some ⟨NaiveDate.fromYmd 2024 4 20, 64994⟩ := by decide +kernel
    obtain rfl := Option.some.inj (hlast.symm.trans htoday)
    obtain rfl := Option.some.inj (hfirst.symm.trans hearliest)
    exact absurd hlong (by decide)
  · intro raw hraw
    obtain rfl := Option.some.inj (hreplay.symm.trans hraw)
    exact projectionCondition_nil decimal96 twoCloses
  · intro useBtcAnchors raw hraw
    obtain rfl := Option.some.inj ((hcomposite useBtcAnchors).symm.trans hraw)
    exact projectionCondition_nil decimal96 twoCloses

/-- The halving of 2024 with a close of zero. -/
def zeroDay : List DailyClose := [⟨NaiveDate.fromYmd 2024 4 20, 0⟩]

theorem zeroDay_divides_by_zero : ¬decimal96.DivisionsSafe noMath zeroDay := by
  rintro ⟨hsafe, -⟩
  have hzero : (0 : ℚ) ∈ (decimal96.computeOverlay zeroDay).divisors := by decide +kernel
  exact hsafe 0 hzero rfl

end Decimals
end CryptoCollector.Collectors

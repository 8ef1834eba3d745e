import CryptoCollector.Collectors.OverlaySpec

/-!
# The keys of the projected days

Real days stay in the last known cycle, projected ones pass into the next at the estimated
halving. A real key is never above the one its date has among the projected halvings, so
the projected keys go on from the real ones, whichever day is the last.
-/

namespace CryptoCollector.Collectors
open Foundations

section Boundary

variable {date date' today : ℤ} {raw : List RawPoint}

theorem length_takeWhile_append (dates more : List ℤ) :
    (dates.takeWhile (· ≤ date)).length ≤ ((dates ++ more).takeWhile (· ≤ date)).length := by
  induction dates with
  | nil => exact Nat.zero_le _
  | cons halving dates ih =>
    by_cases hle : halving ≤ date
    · simpa [hle] using ih
    · simp [hle]

theorem assignCycleIn_key_le (date : ℤ) :
    (assignCycleIn date halvingDates).key ≤ (assignCycleIn date projectedHalvingDates).key := by
  have hindex : halvingIndex date halvingDates ≤ halvingIndex date projectedHalvingDates :=
    Nat.sub_le_sub_right (length_takeWhile_append halvingDates _) 1
  rcases hindex.lt_or_eq with hlt | heq
  · apply le_of_lt
    rw [CycleAssignment.key, CycleAssignment.key, Prod.Lex.toLex_lt_toLex]
    left
    dsimp only [assignCycleIn]
    omega
  · have hhalving : projectedHalvingDates.getD (halvingIndex date halvingDates) 0 =
        halvingDates.getD (halvingIndex date halvingDates) 0 :=
      List.getD_append halvingDates _ 0 _ (halvingIndex_lt date)
    have hsame : assignCycleIn date halvingDates = assignCycleIn date projectedHalvingDates := by
      rw [assignCycleIn, assignCycleIn, ← heq, hhalving]
    rw [hsame]

/-- A real day has a lower key than any projected day after it. -/
theorem real_key_lt_projected (h : date < date') :
    (assignCycleIn date halvingDates).key < (assignCycleIn date' projectedHalvingDates).key :=
  (assignCycleIn_key_le date).trans_lt (assignCycleIn_key_lt projectedHalvingDates h)

/-- The days after `today` in order, each in its cycle of the projected halvings. -/
structure DaysAfter (today : ℤ) (raw : List RawPoint) : Prop where
  dates : raw.map RawPoint.ts = horizon.map fun k => today + k
  assigned : ∀ r ∈ raw, r.assignment = assignCycleIn r.ts projectedHalvingDates

theorem horizon_ascending : horizon.Pairwise (· < ·) := by
  unfold horizon
  rw [List.pairwise_map]
  apply List.pairwise_lt_range.imp
  intro i j hij
  omega

theorem horizon_ne_nil : horizon ≠ [] := by simp [horizon, cycleLengthDays]

theorem DaysAfter.keys_ascending (h : DaysAfter today raw) :
    Ascending (fun r => r.assignment.key) raw := by
  have hdates : (raw.map RawPoint.ts).Pairwise (· < ·) := by
    rw [h.dates, List.pairwise_map]
    apply horizon_ascending.imp
    intro j k hjk
    omega
  rw [List.pairwise_map] at hdates
  apply List.Pairwise.imp_of_mem _ hdates
  intro r r' hr hr' hlt
  dsimp only
  rw [h.assigned r hr, h.assigned r' hr']
  exact assignCycleIn_key_lt projectedHalvingDates hlt

theorem DaysAfter.after (h : DaysAfter today raw) {r : RawPoint} (hr : r ∈ raw) :
    today < r.ts := by
  have hmem : r.ts ∈ raw.map RawPoint.ts := List.mem_map_of_mem hr
  rw [h.dates] at hmem
  obtain ⟨k, hk, hts⟩ := List.mem_map.mp hmem
  have hpos := horizon_pos hk
  omega

theorem DaysAfter.cycles_sorted (h : DaysAfter today raw) :
    raw.Pairwise fun r r' => r.assignment.cycleNumber ≤ r'.assignment.cycleNumber :=
  h.keys_ascending.imp cycleNumber_le_of_key_lt

end Boundary

/-- The projected points are those of the 1458 days after `today`, in key order and beyond
the real points. -/
structure ExtendsOverlay (today : ℤ) (realPoints pts : List OverlayPoint) : Prop where
  dates : pts.map OverlayPoint.ts = (List.range 1458).map fun k : ℕ => today + (k + 1)
  ascending : Ascending OverlayPoint.key pts
  beyond : ∀ p ∈ realPoints, ∀ q ∈ pts, p.key < q.key

namespace DecimalArith

variable {arith : DecimalArith} {math : DecimalMath} {daily : List DailyClose}
  {realPoints pts : List OverlayPoint} {raw : List RawPoint} {today : ℤ}

theorem normalizeCycle_keys {cycle : Group ℤ RawPoint}
    (hcycle : cycle ∈ groupBy (fun r => r.assignment.cycleNumber) raw)
    (h : (arith.normalizeCycle realPoints cycle).result = some pts) :
    pts.map (fun p => (p.key, p.ts)) = cycle.items.map fun r => (r.assignment.key, r.ts) := by
  simp only [normalizeCycle, Dividing.result_bind, Option.bind_eq_some_iff,
    Dividing.result_mapM] at h
  obtain ⟨anchor, -, low, -, h⟩ := h
  apply map_eq_of_mapM _ h
  intro r hr p hp
  simp only [Option.bind_eq_some_iff, result_div, Dividing.result_pure] at hp
  obtain ⟨n, -, m, -, hp⟩ := hp
  cases hp
  rw [OverlayPoint.key, CycleAssignment.key, (key_of_mem_items hcycle hr).2]

theorem normalizeProjection_keys (hsorted : raw.Pairwise fun r r' =>
      r.assignment.cycleNumber ≤ r'.assignment.cycleNumber)
    (h : (arith.normalizeProjection realPoints raw).result = some pts) :
    pts.map (fun p => (p.key, p.ts)) = raw.map fun r => (r.assignment.key, r.ts) := by
  simp only [normalizeProjection, Dividing.result_bind, Option.bind_eq_some_iff,
    Dividing.result_mapM] at h
  obtain ⟨cycles, hcycles, h⟩ := h
  obtain rfl : cycles.flatten = pts := Option.some.inj h
  rw [flatMap_eq_of_mapM (fun cycle hcycle points hpoints => normalizeCycle_keys hcycle hpoints)
    hcycles, ← List.map_flatMap, flatMap_items_groupBy_of_sorted hsorted]

theorem extends_of_daysAfter (hraw : DaysAfter today raw)
    (hreal : (arith.computeOverlay daily).result = some realPoints)
    (hlast : ∀ d ∈ daily, d.date ≤ today)
    (h : (arith.normalizeProjection realPoints raw).result = some pts) :
    ExtendsOverlay today realPoints pts := by
  have hkeys := normalizeProjection_keys hraw.cycles_sorted h
  have hts : pts.map OverlayPoint.ts = raw.map RawPoint.ts := by
    have hsnd := congrArg (List.map Prod.snd) hkeys
    rwa [List.map_map, List.map_map] at hsnd
  constructor
  · rw [hts, hraw.dates, horizon, List.map_map]
    rfl
  · have hfst := congrArg (List.map Prod.fst) hkeys
    rw [List.map_map, List.map_map] at hfst
    exact hraw.keys_ascending.of_map_eq hfst
  · intro p hp q hq
    have hmem : (q.key, q.ts) ∈ pts.map fun p => (p.key, p.ts) := List.mem_map_of_mem hq
    rw [hkeys] at hmem
    obtain ⟨r, hr, hqr⟩ := List.mem_map.mp hmem
    obtain ⟨hkey, -⟩ := Prod.mk.inj hqr
    have hle := hlast _ (computeOverlay_dayClose_mem hreal hp)
    have hafter := hraw.after hr
    rw [computeOverlay_key hreal hp, ← hkey, hraw.assigned r hr]
    exact real_key_lt_projected (lt_of_le_of_lt hle hafter)

theorem exists_priceAtOrBefore {series : List DailyClose} {earliest : DailyClose} {date : ℤ}
    (hhead : series.head? = some earliest) (hle : earliest.date ≤ date) :
    ∃ price, priceAtOrBefore series date = some price := by
  obtain ⟨rest, rfl⟩ := List.head?_eq_some_iff.mp hhead
  simp [priceAtOrBefore, hle, List.getLast?_cons]

theorem replayRefs_fst {series : List DailyClose} {earliest : DailyClose} {baseDate : ℤ}
    (hhead : series.head? = some earliest) (hbase : earliest.date ≤ baseDate) :
    (replayRefs series baseDate).map Prod.fst = horizon := by
  apply fst_filterMap_eq
  intro k hk
  have hpos := horizon_pos hk
  exact exists_priceAtOrBefore hhead (by omega)

/-- The replay is empty or of the days after the last real one. -/
theorem replayPath_daysAfter (h : (arith.replayPath daily).result = some raw) :
    raw = [] ∨ ∃ last, (collectSeries daily).getLast? = some last ∧ DaysAfter last.date raw := by
  unfold replayPath at h
  dsimp only at h
  split at h
  · next last earliest hlast hfirst =>
    split_ifs at h with hshort
    · exact Or.inl (Option.some.inj h).symm
    · split at h
      · next basePrice hbase =>
        rw [Dividing.result_mapM] at h
        have hday : ∀ (ref : ℤ × ℚ) r,
            (arith.replayDay last basePrice ref.1 ref.2).result = some r →
              r.ts = last.date + ref.1 ∧
                r.assignment = assignCycleIn r.ts projectedHalvingDates := by
          intro ref r hr
          simp only [replayDay, Dividing.result_bind, Option.bind_eq_some_iff,
            Dividing.result_pure] at hr
          obtain ⟨scaled, -, price, -, hr⟩ := hr
          cases hr
          exact ⟨rfl, rfl⟩
        refine Or.inr ⟨last, hlast, ?_, ?_⟩
        · rw [map_eq_of_mapM (fun ref _ r hr => (hday ref r hr).1) h,
            ← replayRefs_fst hfirst (not_lt.mp hshort), List.map_map]
          rfl
        · intro r hr
          obtain ⟨ref, -, href⟩ := exists_entry_of_mapM h hr
          exact (hday ref r href).2
      · exact Or.inl (Option.some.inj h).symm
  · exact Or.inl (Option.some.inj h).symm

theorem compositeDays_days {model : FittedModel} {grid : List BandOffset} {g0 rhoK : ℚ}
    {ks : List ℤ}
    (h : (arith.compositeDays math model grid today g0 rhoK ks).result = some raw) :
    raw.map RawPoint.ts = ks.map (fun k => today + k) ∧
      ∀ r ∈ raw, r.assignment = assignCycleIn r.ts model.halvings := by
  induction ks generalizing rhoK raw with
  | nil =>
    obtain rfl : [] = raw := Option.some.inj h
    exact ⟨rfl, fun r hr => absurd hr List.not_mem_nil⟩
  | cons k ks ih =>
    simp only [compositeDays, Dividing.result_bind, Option.bind_eq_some_iff,
      Dividing.result_pure] at h
    obtain ⟨next, -, day, hday, days, hdays, h⟩ := h
    obtain rfl := Option.some.inj h
    obtain ⟨hts, hassign⟩ := ih hdays
    simp only [compositeDay, Dividing.result_bind, Option.bind_eq_some_iff,
      Dividing.result_pure] at hday
    obtain ⟨level, -, component, -, path, -, decayed, -, center, -, offsets, -, low, -, high, -,
      p50, -, p10, -, p90, -, hday⟩ := hday
    cases hday
    constructor
    · rw [List.map_cons, List.map_cons, hts]
    · intro r hr
      rcases List.mem_cons.mp hr with rfl | hr
      · rfl
      · exact hassign r hr

theorem compositePath_daysAfter {useBtcAnchors : Bool}
    (h : (arith.compositePath math daily useBtcAnchors).result = some raw) :
    raw = [] ∨ ∃ last, (collectSeries daily).getLast? = some last ∧ DaysAfter last.date raw := by
  unfold compositePath at h
  dsimp only at h
  split at h
  · next last earliest hlast hfirst =>
    split_ifs at h
    · exact Or.inl (Option.some.inj h).symm
    · exact Or.inl (Option.some.inj h).symm
    · rw [Dividing.result_bind, Option.bind_eq_some_iff] at h
      obtain ⟨fit, hfit, h⟩ := h
      cases fit with
      | none => exact Or.inl (Option.some.inj h).symm
      | some model =>
        simp only [Dividing.result_bind, Option.bind_eq_some_iff] at h
        obtain ⟨bands, -, rToday, -, component, -, g0, -, h⟩ := h
        obtain ⟨hts, hassign⟩ := compositeDays_days h
        refine Or.inr ⟨last, hlast, hts, ?_⟩
        rwa [halvings_of_fitModel hfit] at hassign
  · exact Or.inl (Option.some.inj h).symm

theorem normalizeProjection_nil :
    (arith.normalizeProjection realPoints []).result = some [] := rfl

theorem last_date_eq {last : DailyClose} (h : (collectSeries daily).getLast? = some last)
    (htoday : IsGreatest {date | ∃ d ∈ daily, d.date = date} today) : last.date = today := by
  have hmem : last ∈ daily := mem_of_mem_collectSeries (List.mem_of_getLast? h)
  obtain ⟨d, hd, hdate⟩ := htoday.1
  have hle : last.date ≤ today := htoday.2 ⟨last, hmem, rfl⟩
  have hge := le_last_date h d hd
  omega

theorem extends_of_path (hreal : (arith.computeOverlay daily).result = some realPoints)
    (htoday : IsGreatest {date | ∃ d ∈ daily, d.date = date} today)
    (hraw : raw = [] ∨
      ∃ last, (collectSeries daily).getLast? = some last ∧ DaysAfter last.date raw)
    (h : (arith.normalizeProjection realPoints raw).result = some pts) (hne : pts ≠ []) :
    ExtendsOverlay today realPoints pts := by
  rcases hraw with rfl | ⟨last, hlast, hafter⟩
  · exact absurd (Option.some.inj (h.symm.trans normalizeProjection_nil)) hne
  · rw [last_date_eq hlast htoday] at hafter
    exact extends_of_daysAfter hafter hreal (fun d hd => htoday.2 ⟨d, hd, rfl⟩) h

section Exact

variable {earliest last : DailyClose} {price : ℚ}

theorem closesOf_pos (hpos : ∀ d ∈ daily, 0 < d.close) {n : ℤ} (h : price ∈ closesOf daily n) :
    0 < price := by
  obtain ⟨closes, hcloses, hmem⟩ := List.mem_flatMap.mp h
  obtain ⟨cycle, hcycle, rfl⟩ := List.mem_map.mp (List.mem_filter.mp hcloses).1
  obtain ⟨c, hc, rfl⟩ := List.mem_map.mp hmem
  obtain ⟨hday, -⟩ := key_of_mem_items hcycle ((mem_sortBy _).mp hc)
  exact hpos _ (mem_cycleDays.mp hday).1

theorem anchorOf_pos (hpos : ∀ d ∈ daily, 0 < d.close) {cycle : Group ℤ RawPoint}
    (hitems : ∀ r ∈ cycle.items, 0 < r.price) (h : anchorOf daily cycle = some price) :
    0 < price := by
  rcases Option.or_eq_some_iff.mp h with hclose | ⟨-, hraw⟩
  · exact closesOf_pos hpos (List.mem_of_mem_head? hclose)
  · obtain ⟨r, hr, rfl⟩ := Option.map_eq_some_iff.mp hraw
    exact hitems r (firstMin_mem hr)

theorem lowOf_pos (hpos : ∀ d ∈ daily, 0 < d.close) {cycle : Group ℤ RawPoint}
    (hitems : ∀ r ∈ cycle.items, 0 < r.price) (h : lowOf daily cycle = some price) :
    0 < price := by
  rcases List.mem_append.mp (List.min?_mem h) with hclose | hraw
  · exact closesOf_pos hpos hclose
  · obtain ⟨r, hr, rfl⟩ := List.mem_map.mp hraw
    exact hitems r hr

theorem normalizeProjection_exists (hpos : ∀ d ∈ daily, 0 < d.close)
    (hreal : (exactArith.computeOverlay daily).result = some realPoints)
    (hraw : ∀ r ∈ raw, 0 < r.price) :
    ∃ pts, (exactArith.normalizeProjection realPoints raw).result = some pts := by
  have hcycles : ((groupBy (fun r => r.assignment.cycleNumber) raw).mapM
      (exactArith.normalizeCycle realPoints)).result ≠ none := by
    rw [Dividing.result_mapM_ne_none]
    intro cycle hcycle
    rw [result_normalizeCycle_ne_none_iff (fun d _ => trivial) hreal]
    have hitems : ∀ r ∈ cycle.items, 0 < r.price :=
      fun r hr => hraw r (key_of_mem_items hcycle hr).1
    intro anchor hanchor low hlow x _
    have hanchor := (anchorOf_pos hpos hitems hanchor).ne'
    have hlow := (lowOf_pos hpos hitems hlow).ne'
    constructor
    · simp [exactArith, checkedDiv_of_ne hanchor]
    · simp [exactArith, checkedDiv_of_ne hlow]
  obtain ⟨cycles, hcycles⟩ := Option.ne_none_iff_exists'.mp hcycles
  refine ⟨cycles.flatten, ?_⟩
  rw [normalizeProjection, Dividing.result_bind, hcycles]
  rfl

theorem priceAtOrBefore_pos (hpos : ∀ d ∈ daily, 0 < d.close) {date : ℤ}
    (h : priceAtOrBefore (collectSeries daily) date = some price) : 0 < price := by
  obtain ⟨d, hd, rfl⟩ := Option.map_eq_some_iff.mp h
  have hmem := (List.takeWhile_sublist _).subset (List.mem_of_getLast? hd)
  exact hpos d (mem_of_mem_collectSeries hmem)

def scaledDay (last : DailyClose) (basePrice : ℚ) (ref : ℤ × ℚ) : RawPoint :=
  ⟨last.date + ref.1, last.close * ref.2 / basePrice, none, none,
    assignCycleIn (last.date + ref.1) projectedHalvingDates⟩

/-- A replay of positive closes over a whole cycle of history is there. -/
theorem projectCycleRepeat_exists (hpos : ∀ d ∈ daily, 0 < d.close)
    (hreal : (exactArith.computeOverlay daily).result = some realPoints)
    (hfirst : (collectSeries daily).head? = some earliest)
    (hlast : (collectSeries daily).getLast? = some last)
    (hspan : earliest.date ≤ last.date - cycleLengthDays) :
    ∃ pts, (exactArith.projectCycleRepeat daily realPoints).result = some pts ∧ pts ≠ [] := by
  obtain ⟨basePrice, hbase⟩ := exists_priceAtOrBefore hfirst hspan
  have hbasePos := priceAtOrBefore_pos hpos hbase
  have hrefs := replayRefs_fst hfirst hspan
  have hlastPos : 0 < last.close :=
    hpos last (mem_of_mem_collectSeries (List.mem_of_getLast? hlast))
  have hday : ∀ ref : ℤ × ℚ, (exactArith.replayDay last basePrice ref.1 ref.2).result =
      some (scaledDay last basePrice ref) := by
    intro ref
    simp only [replayDay, Dividing.result_bind, exact_mul, exact_div, Option.bind_some,
      checkedDiv_of_ne hbasePos.ne', Dividing.result_pure]
    rfl
  have hpath : (exactArith.replayPath daily).result =
      some ((replayRefs (collectSeries daily) (last.date - cycleLengthDays)).map
        (scaledDay last basePrice)) := by
    simp only [replayPath, hfirst, hlast, hbase, if_neg (not_lt.mpr hspan)]
    exact Dividing.result_mapM_of_some hday _
  have hprices : ∀ r ∈ (replayRefs (collectSeries daily) (last.date - cycleLengthDays)).map
      (scaledDay last basePrice), 0 < r.price := by
    intro r hr
    obtain ⟨ref, href, rfl⟩ := List.mem_map.mp hr
    obtain ⟨k, -, hk⟩ := List.mem_filterMap.mp href
    obtain ⟨refPrice, hrefPrice, rfl⟩ := Option.map_eq_some_iff.mp hk
    have hrefPos := priceAtOrBefore_pos hpos hrefPrice
    exact div_pos (mul_pos hlastPos hrefPos) hbasePos
  obtain ⟨pts, hpts⟩ := normalizeProjection_exists hpos hreal hprices
  refine ⟨pts, ?_, ?_⟩
  · rw [projectCycleRepeat, Dividing.result_bind, hpath]
    exact hpts
  · rintro rfl
    rcases replayPath_daysAfter hpath with hnil | ⟨last', -, hafter⟩
    · exact horizon_ne_nil (hrefs.symm.trans (by rw [List.map_eq_nil_iff.mp hnil]; rfl))
    · have hkeys := normalizeProjection_keys hafter.cycles_sorted hpts
      have hdates := hafter.dates
      rw [List.map_eq_nil_iff.mp hkeys.symm] at hdates
      exact horizon_ne_nil (List.map_eq_nil_iff.mp hdates.symm)

end Exact

/-- Neither projection shares a key with the real series or falls behind it. -/
theorem projections_extend_overlay
    (hreal : (arith.computeOverlay daily).result = some realPoints)
    (htoday : IsGreatest {date | ∃ d ∈ daily, d.date = date} today) :
    (∀ pts, (arith.projectCycleRepeat daily realPoints).result = some pts → pts ≠ [] →
      ExtendsOverlay today realPoints pts) ∧
    ∀ math useBtcAnchors pts,
      (arith.projectComposite math daily realPoints useBtcAnchors).result = some pts → pts ≠ [] →
        ExtendsOverlay today realPoints pts := by
  constructor
  · intro pts h hne
    rw [projectCycleRepeat, Dividing.result_bind, Option.bind_eq_some_iff] at h
    obtain ⟨raw, hraw, h⟩ := h
    exact extends_of_path hreal htoday (replayPath_daysAfter hraw) h hne
  · intro math useBtcAnchors pts h hne
    rw [projectComposite, Dividing.result_bind, Option.bind_eq_some_iff] at h
    obtain ⟨raw, hraw, h⟩ := h
    exact extends_of_path hreal htoday (compositePath_daysAfter hraw) h hne

end DecimalArith

/-- Two closes more than a cycle apart. -/
def wideCloses : List DailyClose :=
  [⟨NaiveDate.fromYmd 2024 5 1, 58331⟩, ⟨NaiveDate.fromYmd 2020 4 30, 8658⟩]

theorem wideCloses_extend : ∃ realPoints pts, computeOverlay wideCloses = some realPoints ∧
    (exactArith.projectCycleRepeat wideCloses realPoints).result = some pts ∧
      ExtendsOverlay (NaiveDate.fromYmd 2024 5 1) realPoints pts := by
  have hpos : ∀ d ∈ wideCloses, 0 < d.close := by decide +kernel
  obtain ⟨realPoints, hreal⟩ := computeOverlay_exists hpos
  rw [← DecimalArith.computeOverlay_exact] at hreal
  have hfirst : (collectSeries wideCloses).head? = some ⟨NaiveDate.fromYmd 2020 4 30, 8658⟩ := by
    decide +kernel
  have hlast : (collectSeries wideCloses).getLast? = some ⟨NaiveDate.fromYmd 2024 5 1, 58331⟩ := by
    decide +kernel
  obtain ⟨pts, hpts, hne⟩ :=
    DecimalArith.projectCycleRepeat_exists hpos hreal hfirst hlast (by decide)
  have htoday : IsGreatest {date | ∃ d ∈ wideCloses, d.date = date}
      (NaiveDate.fromYmd 2024 5 1) := by
    constructor
    · exact ⟨_, List.mem_cons_self, rfl⟩
    · rintro date ⟨d, hd, rfl⟩
      exact le_last_date hlast d hd
  refine ⟨realPoints, pts, ?_, hpts, ?_⟩
  · rw [← hreal, DecimalArith.computeOverlay_exact]
  · exact (DecimalArith.projections_extend_overlay hreal htoday).1 pts hpts hne

end CryptoCollector.Collectors

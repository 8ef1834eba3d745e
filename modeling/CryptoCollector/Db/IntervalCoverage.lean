import CryptoCollector.Db.Candles
import CryptoCollector.Foundations.LooseScan

/-!
# The coverage query

`interval_coverage` scans the index loosely: it looks up one interval after the other
and seeks both ends of each. It returns what grouping the rows by interval does. The
collation of the column is a parameter, an order in which no two texts are equal.
-/

namespace CryptoCollector.Db
open Models Foundations

namespace CandleTable

variable {κ : Type*} [LinearOrder κ]

def storedIntervals (t : CandleTable) (coinId vsCurrency : String) : List String :=
  (t.rows.filter fun c => c.coinId = coinId ∧ c.vsCurrency = vsCurrency).map CoinCandle.interval

/-- `ivs`, if the recursion ends within so many rounds. -/
def ivs (collation : String ↪ κ) (t : CandleTable) (coinId vsCurrency : String) (fuel : ℕ) :
    Option (List (Option String)) :=
  looseScan collation (t.storedIntervals coinId vsCurrency) fuel

/-- `ORDER BY c.ts ASC LIMIT 1`. -/
def earliestSeek (t : CandleTable) (coinId vsCurrency interval : String) : Option ℤ :=
  (sortByTs (t.series coinId vsCurrency interval)).head?.map CoinCandle.ts

/-- `ORDER BY c.ts DESC LIMIT 1`. -/
def latestSeek (t : CandleTable) (coinId vsCurrency interval : String) : Option ℤ :=
  (sortByTsDesc (t.series coinId vsCurrency interval)).head?.map CoinCandle.ts

/-- The rows of the query of `interval_coverage`. -/
def coverageScan (collation : String ↪ κ) (t : CandleTable) (coinId vsCurrency : String)
    (fuel : ℕ) : Option (List (String × Option ℤ × Option ℤ)) :=
  (t.ivs collation coinId vsCurrency fuel).map fun ivs =>
    ivs.reduceOption.map fun interval =>
      (interval, t.earliestSeek coinId vsCurrency interval, t.latestSeek coinId vsCurrency interval)

/-- `SELECT interval, MIN(ts), MAX(ts) .. GROUP BY interval`. -/
def groupedCoverage (t : CandleTable) (coinId vsCurrency : String) :
    List (String × Option ℤ × Option ℤ) :=
  (t.storedIntervals coinId vsCurrency).dedup.map fun interval =>
    (interval, ((t.series coinId vsCurrency interval).map CoinCandle.ts).min?,
      ((t.series coinId vsCurrency interval).map CoinCandle.ts).max?)

variable {t : CandleTable} {coinId vsCurrency interval : String}

theorem earliestSeek_eq_min :
    t.earliestSeek coinId vsCurrency interval =
      ((t.series coinId vsCurrency interval).map CoinCandle.ts).min? := by
  change (firstBy CoinCandle.ts (t.series coinId vsCurrency interval)).map CoinCandle.ts = _
  cases hfirst : firstBy CoinCandle.ts (t.series coinId vsCurrency interval) with
  | none => simp [firstBy_eq_none_iff.mp hfirst]
  | some c =>
    symm
    rw [Option.map_some, List.min?_eq_some_iff]
    refine ⟨List.mem_map_of_mem (firstBy_mem hfirst), ?_⟩
    intro ts hts
    obtain ⟨d, hd, rfl⟩ := List.mem_map.mp hts
    exact firstBy_le hfirst hd

theorem latestSeek_eq_max :
    t.latestSeek coinId vsCurrency interval =
      ((t.series coinId vsCurrency interval).map CoinCandle.ts).max? := by
  change (firstBy (fun c => OrderDual.toDual c.ts)
    (t.series coinId vsCurrency interval)).map CoinCandle.ts = _
  cases hfirst : firstBy (fun c => OrderDual.toDual c.ts)
      (t.series coinId vsCurrency interval) with
  | none => simp [firstBy_eq_none_iff.mp hfirst]
  | some c =>
    symm
    rw [Option.map_some, List.max?_eq_some_iff]
    refine ⟨List.mem_map_of_mem (firstBy_mem hfirst), ?_⟩
    intro ts hts
    obtain ⟨d, hd, rfl⟩ := List.mem_map.mp hts
    have hle := firstBy_le hfirst hd
    exact hle

theorem mem_storedIntervals_iff :
    interval ∈ t.storedIntervals coinId vsCurrency ↔
      t.series coinId vsCurrency interval ≠ [] := by
  simp only [storedIntervals, List.mem_map, List.mem_filter, decide_eq_true_eq]
  constructor
  · rintro ⟨c, ⟨hc, hcoin, hcurrency⟩, rfl⟩
    exact List.ne_nil_of_mem (mem_series.mpr ⟨hc, hcoin, hcurrency, rfl⟩)
  · intro hne
    obtain ⟨c, hc⟩ := List.exists_mem_of_ne_nil _ hne
    obtain ⟨hrow, hcoin, hcurrency, hinterval⟩ := mem_series.mp hc
    exact ⟨c, ⟨hrow, hcoin, hcurrency⟩, hinterval⟩

theorem exists_seeks (h : interval ∈ t.storedIntervals coinId vsCurrency) :
    ∃ earliest latest, t.earliestSeek coinId vsCurrency interval = some earliest ∧
      t.latestSeek coinId vsCurrency interval = some latest := by
  have hne := mem_storedIntervals_iff.mp h
  rw [earliestSeek_eq_min, latestSeek_eq_max]
  have hmin : ((t.series coinId vsCurrency interval).map CoinCandle.ts).min? ≠ none := by
    simpa [List.min?_eq_none_iff] using hne
  have hmax : ((t.series coinId vsCurrency interval).map CoinCandle.ts).max? ≠ none := by
    simpa [List.max?_eq_none_iff] using hne
  obtain ⟨earliest, hearliest⟩ := Option.ne_none_iff_exists'.mp hmin
  obtain ⟨latest, hlatest⟩ := Option.ne_none_iff_exists'.mp hmax
  exact ⟨earliest, latest, hearliest, hlatest⟩

/-- One row of the query without its nullable columns. -/
def nullable (row : String × ℤ × ℤ) : String × Option ℤ × Option ℤ :=
  (row.1, some row.2.1, some row.2.2)

/-- The row of one interval, if it is stored. -/
def coverageRow (t : CandleTable) (coinId vsCurrency interval : String) :
    Option (String × ℤ × ℤ) := do
  let earliest ← (sortByTs (t.series coinId vsCurrency interval)).head?
  let latest ← (sortByTsDesc (t.series coinId vsCurrency interval)).head?
  return (interval, earliest.ts, latest.ts)

theorem intervalCoverage_eq (t : CandleTable) (coinId vsCurrency : String) :
    t.intervalCoverage coinId vsCurrency =
      (t.storedIntervals coinId vsCurrency).dedup.filterMap (t.coverageRow coinId vsCurrency) := rfl

theorem map_nullable_coverageRow (names : List String)
    (h : ∀ interval ∈ names, interval ∈ t.storedIntervals coinId vsCurrency) :
    (names.filterMap (t.coverageRow coinId vsCurrency)).map nullable =
      names.map fun interval => (interval, t.earliestSeek coinId vsCurrency interval,
        t.latestSeek coinId vsCurrency interval) := by
  induction names with
  | nil => rfl
  | cons interval names ih =>
    have hrest := ih fun other hother => h other (List.mem_cons_of_mem _ hother)
    obtain ⟨earliest, latest, hearliest, hlatest⟩ := exists_seeks (h interval List.mem_cons_self)
    obtain ⟨first, hfirst, rfl⟩ := Option.map_eq_some_iff.mp hearliest
    obtain ⟨last, hlast, rfl⟩ := Option.map_eq_some_iff.mp hlatest
    have hrow : t.coverageRow coinId vsCurrency interval = some (interval, first.ts, last.ts) := by
      rw [coverageRow, hfirst, hlast]
      rfl
    rw [List.filterMap_cons_some hrow, List.map_cons, hrest, List.map_cons, hearliest, hlatest]
    rfl

theorem nullable_intervalCoverage_eq (t : CandleTable) (coinId vsCurrency : String) :
    (t.intervalCoverage coinId vsCurrency).map nullable =
      t.groupedCoverage coinId vsCurrency := by
  have hmem : ∀ interval ∈ (t.storedIntervals coinId vsCurrency).dedup,
      interval ∈ t.storedIntervals coinId vsCurrency := fun _ => List.mem_dedup.mp
  rw [intervalCoverage_eq, map_nullable_coverageRow _ hmem, groupedCoverage]
  simp only [earliestSeek_eq_min, latestSeek_eq_max]

theorem mem_groupedCoverage_iff {earliest latest : ℤ} :
    (interval, some earliest, some latest) ∈ t.groupedCoverage coinId vsCurrency ↔
      ((t.series coinId vsCurrency interval).map CoinCandle.ts).min? = some earliest ∧
        ((t.series coinId vsCurrency interval).map CoinCandle.ts).max? = some latest := by
  simp only [groupedCoverage, List.mem_map, List.mem_dedup, Prod.mk.injEq]
  constructor
  · rintro ⟨_, -, rfl, hmin, hmax⟩
    exact ⟨hmin, hmax⟩
  · rintro ⟨hmin, hmax⟩
    refine ⟨interval, mem_storedIntervals_iff.mpr ?_, rfl, hmin, hmax⟩
    intro hempty
    rw [hempty] at hmin
    cases hmin

/-- `interval_coverage`: the recursion ends, and its rows are those of the grouped query,
one for each stored interval with the first and the last time. -/
theorem coverageScan_eq_grouped (collation : String ↪ κ) (t : CandleTable)
    (coinId vsCurrency : String) :
    ∃ rows : List (String × ℤ × ℤ), (∃ fuel, ∀ fuel', fuel ≤ fuel' →
        t.coverageScan collation coinId vsCurrency fuel' = some (rows.map nullable)) ∧
      (rows.map nullable).Perm (t.groupedCoverage coinId vsCurrency) ∧
      rows.Perm (t.intervalCoverage coinId vsCurrency) ∧ (rows.map Prod.fst).Nodup ∧
      ∀ interval earliest latest, (interval, earliest, latest) ∈ rows ↔
        ((t.series coinId vsCurrency interval).map CoinCandle.ts).min? = some earliest ∧
          ((t.series coinId vsCurrency interval).map CoinCandle.ts).max? = some latest := by
  obtain ⟨found, hscan, hasc, hmem⟩ :=
    looseScan_spec (t.storedIntervals coinId vsCurrency) collation.injective
  have hnames : found.reduceOption.Perm (t.storedIntervals coinId vsCurrency).dedup := by
    apply (List.perm_ext_iff_of_nodup hasc.nodup (List.nodup_dedup _)).mpr
    intro interval
    rw [hmem, List.mem_dedup]
  have hrows := map_nullable_coverageRow found.reduceOption fun interval => (hmem interval).mp
  set rows := found.reduceOption.filterMap (t.coverageRow coinId vsCurrency)
  have hperm : rows.Perm (t.intervalCoverage coinId vsCurrency) := hnames.filterMap _
  have hgrouped : (rows.map nullable).Perm (t.groupedCoverage coinId vsCurrency) := by
    rw [← nullable_intervalCoverage_eq]
    exact hperm.map nullable
  refine ⟨rows, ⟨(t.storedIntervals coinId vsCurrency).length + 2, ?_⟩, hgrouped, hperm, ?_, ?_⟩
  · intro fuel' hfuel
    rw [coverageScan, ivs, hscan fuel' hfuel, hrows]
    rfl
  · have hfst : rows.map Prod.fst = found.reduceOption := by
      have hcols := congrArg (List.map Prod.fst) hrows
      rw [List.map_map, List.map_map] at hcols
      have hid : found.reduceOption.map id = found.reduceOption := List.map_id _
      exact hcols.trans hid
    rw [hfst]
    exact hasc.nodup
  · intro interval earliest latest
    rw [← mem_groupedCoverage_iff, ← hgrouped.mem_iff, List.mem_map]
    constructor
    · intro hrow
      exact ⟨_, hrow, rfl⟩
    · rintro ⟨⟨interval', earliest', latest'⟩, hrow, heq⟩
      cases heq
      exact hrow

end CandleTable
end CryptoCollector.Db

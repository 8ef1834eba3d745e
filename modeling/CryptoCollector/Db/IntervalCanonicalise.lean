import CryptoCollector.Db.Candles
import CryptoCollector.Foundations.Rekeying

/-!
# The interval canonicalisation

The migration that stamps the `daily` and `hourly` candles `1d` and `1h`. It first deletes the
rows whose canonical twin is stored, then updates the rest. A statement reads the table as it
was at its start; the update visits its rows in an order of the server's choosing and holds
each against the primary key as it comes.
-/

namespace CryptoCollector.Db
open Models Foundations

/-- `CASE interval WHEN 'daily' THEN '1d' WHEN 'hourly' THEN '1h' END`; `NULL` without a match. -/
def caseInterval (interval : String) : Option String :=
  if interval = "daily" then some "1d" else if interval = "hourly" then some "1h" else none

namespace CandleTable

/-- `interval IN ('daily', 'hourly')`. -/
def nonCanonical (c : CoinCandle) : Bool := c.interval = "daily" ∨ c.interval = "hourly"

/-- The rows the first step deletes: the canonical twin of each is stored. -/
def shadowed (t : CandleTable) (c : CoinCandle) : Bool :=
  nonCanonical c && t.rows.any fun twin =>
    twin.coinId = c.coinId ∧ twin.vsCurrency = c.vsCurrency ∧ twin.ts = c.ts ∧
      some twin.interval = caseInterval c.interval

/-- `SET interval = CASE ..`. The column is not nullable. -/
def setInterval (c : CoinCandle) : Option CoinCandle :=
  (caseInterval c.interval).map fun interval => { c with interval }

def dropShadowed (t : CandleTable) : CandleTable := t.erase (shadowed t)

/-- The rows the second step updates. -/
def remaining (t : CandleTable) : List CoinCandle := (dropShadowed t).rows.filter nonCanonical

/-- The migration, its second step visiting the rows in the order `visited`. -/
def canonicaliseIntervals (t : CandleTable) (visited : List CoinCandle) : Option CandleTable :=
  (dropShadowed t).updateEach setInterval visited

/-- The key a row has after the migration. -/
def canonicalKey (c : CoinCandle) : CandleKey :=
  ⟨c.coinId, c.vsCurrency, (caseInterval c.interval).getD c.interval, c.ts⟩

def canonicalRow (c : CoinCandle) : CoinCandle :=
  { c with interval := (caseInterval c.interval).getD c.interval }

/-- `t'` has the rows of `t` under their canonical keys, and where two of them meet the one
that had the key before. -/
structure Canonicalised (t t' : CandleTable) : Prop where
  canonical : ∀ c ∈ t'.rows, c.interval ≠ "daily" ∧ c.interval ≠ "hourly"
  occupied : ∀ k, (t'.lookup k).isSome ↔ ∃ c ∈ t.rows, canonicalKey c = k
  renamed : ∀ old new, caseInterval old = some new → ∀ coinId vsCurrency ts,
    t'.lookup ⟨coinId, vsCurrency, new, ts⟩ =
      (t.lookup ⟨coinId, vsCurrency, new, ts⟩).or
        ((t.lookup ⟨coinId, vsCurrency, old, ts⟩).map fun c => { c with interval := new })
  untouched : ∀ k, k.interval ∉ ["daily", "1d", "hourly", "1h"] → t'.lookup k = t.lookup k

section Intervals

variable {interval interval' canonical : String} {c c' : CoinCandle}

theorem caseInterval_eq_some_iff : caseInterval interval = some canonical ↔
    (interval = "daily" ∧ canonical = "1d") ∨ (interval = "hourly" ∧ canonical = "1h") := by
  unfold caseInterval
  split_ifs with hdaily hhourly
  · subst hdaily
    simp [eq_comm]
  · subst hhourly
    simp [eq_comm]
  · simp [hdaily, hhourly]

theorem nonCanonical_iff : nonCanonical c = true ↔ ∃ new, caseInterval c.interval = some new := by
  simp only [nonCanonical, decide_eq_true_eq, caseInterval_eq_some_iff]
  constructor
  · rintro (h | h)
    · exact ⟨"1d", Or.inl ⟨h, rfl⟩⟩
    · exact ⟨"1h", Or.inr ⟨h, rfl⟩⟩
  · rintro ⟨new, ⟨h, -⟩ | ⟨h, -⟩⟩
    · exact Or.inl h
    · exact Or.inr h

theorem nonCanonical_eq_false_iff : nonCanonical c = false ↔ caseInterval c.interval = none := by
  rw [← Bool.not_eq_true, nonCanonical_iff, not_exists, Option.eq_none_iff_forall_ne_some]

theorem caseInterval_canonical (h : caseInterval interval = some canonical) :
    caseInterval canonical = none := by
  rcases caseInterval_eq_some_iff.mp h with ⟨-, rfl⟩ | ⟨-, rfl⟩
  · decide
  · decide

theorem caseInterval_inj (h : caseInterval interval = some canonical)
    (h' : caseInterval interval' = some canonical) : interval = interval' := by
  rcases caseInterval_eq_some_iff.mp h with ⟨rfl, rfl⟩ | ⟨rfl, rfl⟩
  · rcases caseInterval_eq_some_iff.mp h' with ⟨rfl, -⟩ | ⟨-, hne⟩
    · rfl
    · simp at hne
  · rcases caseInterval_eq_some_iff.mp h' with ⟨-, hne⟩ | ⟨rfl, -⟩
    · simp at hne
    · rfl

@[simp] theorem key_canonicalRow : (canonicalRow c).key = canonicalKey c := rfl

theorem setInterval_of_nonCanonical (h : nonCanonical c = true) :
    setInterval c = some (canonicalRow c) := by
  obtain ⟨new, hnew⟩ := nonCanonical_iff.mp h
  simp [setInterval, canonicalRow, hnew]

theorem canonicalRow_of_canonical (h : nonCanonical c = false) : canonicalRow c = c := by
  simp [canonicalRow, nonCanonical_eq_false_iff.mp h]

theorem nonCanonical_canonicalRow : nonCanonical (canonicalRow c) = false := by
  rw [nonCanonical_eq_false_iff, canonicalRow]
  cases h : caseInterval c.interval with
  | none => exact h
  | some new => exact caseInterval_canonical h

/-- Two renamed rows that meet had one key before. -/
theorem key_eq_of_canonicalKey_eq (hc : nonCanonical c = true) (hc' : nonCanonical c' = true)
    (h : canonicalKey c = canonicalKey c') : c.key = c'.key := by
  obtain ⟨new, hnew⟩ := nonCanonical_iff.mp hc
  obtain ⟨new', hnew'⟩ := nonCanonical_iff.mp hc'
  simp only [canonicalKey, hnew, hnew', Option.getD_some, CandleKey.mk.injEq] at h
  obtain ⟨hcoin, hcurrency, rfl, hts⟩ := h
  simp only [CoinCandle.key, hcoin, hcurrency, hts, caseInterval_inj hnew hnew']

end Intervals

variable {t t' : CandleTable} {c : CoinCandle} {visited : List CoinCandle}

theorem shadowed_iff : shadowed t c = true ↔
    nonCanonical c = true ∧ ∃ twin ∈ t.rows, twin.key = canonicalKey c := by
  simp only [shadowed, Bool.and_eq_true, List.any_eq_true, decide_eq_true_eq]
  apply and_congr_right
  intro hc
  obtain ⟨new, hnew⟩ := nonCanonical_iff.mp hc
  simp only [CoinCandle.key, canonicalKey, hnew, Option.getD_some, CandleKey.mk.injEq,
    Option.some.injEq]
  constructor
  · rintro ⟨twin, htwin, hcoin, hcurrency, hts, hinterval⟩
    exact ⟨twin, htwin, hcoin, hcurrency, hinterval, hts⟩
  · rintro ⟨twin, htwin, hcoin, hcurrency, hinterval, hts⟩
    exact ⟨twin, htwin, hcoin, hcurrency, hts, hinterval⟩

theorem mem_remaining : c ∈ remaining t ↔
    c ∈ t.rows ∧ nonCanonical c = true ∧ ∀ twin ∈ t.rows, twin.key ≠ canonicalKey c := by
  rw [remaining, List.mem_filter, dropShadowed, KeyedTable.mem_erase, ← Bool.not_eq_true,
    shadowed_iff]
  push Not
  tauto

theorem mem_dropShadowed_and_not_mem_remaining :
    c ∈ (dropShadowed t).rows ∧ c ∉ remaining t ↔ c ∈ t.rows ∧ nonCanonical c = false := by
  rw [remaining, List.mem_filter, dropShadowed, KeyedTable.mem_erase, ← Bool.not_eq_true,
    ← Bool.not_eq_true]
  constructor
  · rintro ⟨⟨hrow, hkept⟩, hnot⟩
    exact ⟨hrow, fun hnon => hnot ⟨⟨hrow, hkept⟩, hnon⟩⟩
  · rintro ⟨hrow, hnon⟩
    have hkept : ¬shadowed t c = true := fun hshadowed => hnon (shadowed_iff.mp hshadowed).1
    exact ⟨⟨hrow, hkept⟩, fun hleft => hnon hleft.2⟩

/-- `t'` keeps the canonical rows of `t` and has the unshadowed ones under their new keys. -/
def RowsMoved (t t' : CandleTable) : Prop :=
  ∀ z, z ∈ t'.rows ↔
    (z ∈ t.rows ∧ nonCanonical z = false) ∨ ∃ c ∈ remaining t, canonicalRow c = z

/-- The rows the update visits move to keys that the first step left free. -/
theorem movesFree_of_perm (h : visited.Perm (remaining t)) :
    KeyedTable.MovesFree (dropShadowed t) canonicalRow visited := by
  have hleft (c : CoinCandle) (hc : c ∈ visited) : c ∈ remaining t := h.mem_iff.mp hc
  have hnodup : visited.Nodup :=
    h.nodup_iff.mpr ((List.Nodup.of_map _ (dropShadowed t).unique).filter _)
  constructor
  case rows => exact fun c hc => (List.mem_filter.mp (hleft c hc)).1
  case nodup => exact hnodup
  case free =>
    intro c hc y hy heq
    exact (mem_remaining.mp (hleft c hc)).2.2 y (KeyedTable.mem_erase.mp hy).1 heq.symm
  case apart =>
    apply List.Nodup.map_on _ hnodup
    intro c hc c' hc' heq
    obtain ⟨hrow, hnon, -⟩ := mem_remaining.mp (hleft c hc)
    obtain ⟨hrow', hnon', -⟩ := mem_remaining.mp (hleft c' hc')
    exact key_inj hrow hrow' (key_eq_of_canonicalKey_eq hnon hnon' heq)

theorem exists_canonicaliseIntervals (t : CandleTable) (h : visited.Perm (remaining t)) :
    ∃ t', canonicaliseIntervals t visited = some t' ∧ RowsMoved t t' := by
  have hset (c : CoinCandle) (hc : c ∈ visited) : setInterval c = some (canonicalRow c) :=
    setInterval_of_nonCanonical (mem_remaining.mp (h.mem_iff.mp hc)).2.1
  obtain ⟨t', hrun, hmem⟩ := (movesFree_of_perm h).exists_updateEach hset
  refine ⟨t', hrun, ?_⟩
  intro z
  rw [hmem, h.mem_iff, mem_dropShadowed_and_not_mem_remaining]
  simp only [h.mem_iff]

namespace RowsMoved

variable {old new : String}

theorem canonical_of_mem (h : RowsMoved t t') (hc : c ∈ t'.rows) : nonCanonical c = false := by
  rcases (h c).mp hc with ⟨-, hc⟩ | ⟨c, -, rfl⟩
  · exact hc
  · exact nonCanonical_canonicalRow

theorem exists_mem (h : RowsMoved t t') (hc : c ∈ t.rows) :
    ∃ z ∈ t'.rows, z.key = canonicalKey c := by
  cases hnon : nonCanonical c with
  | false =>
    refine ⟨c, (h c).mpr (Or.inl ⟨hc, hnon⟩), ?_⟩
    rw [← key_canonicalRow, canonicalRow_of_canonical hnon]
  | true =>
    by_cases htwin : ∃ twin ∈ t.rows, twin.key = canonicalKey c
    · obtain ⟨twin, hrow, hkey⟩ := htwin
      refine ⟨twin, (h twin).mpr (Or.inl ⟨hrow, ?_⟩), hkey⟩
      have hinterval : twin.interval = (canonicalRow c).interval :=
        congrArg CandleKey.interval hkey
      rw [nonCanonical_eq_false_iff, hinterval, ← nonCanonical_eq_false_iff]
      exact nonCanonical_canonicalRow
    · push Not at htwin
      exact ⟨canonicalRow c,
        (h _).mpr (Or.inr ⟨c, mem_remaining.mpr ⟨hc, hnon, htwin⟩, rfl⟩), rfl⟩

theorem exists_canonicalKey (h : RowsMoved t t') (hc : c ∈ t'.rows) :
    ∃ old ∈ t.rows, canonicalKey old = c.key := by
  rcases (h c).mp hc with ⟨hrow, hnon⟩ | ⟨old, hold, rfl⟩
  · refine ⟨c, hrow, ?_⟩
    rw [← key_canonicalRow, canonicalRow_of_canonical hnon]
  · exact ⟨old, (mem_remaining.mp hold).1, rfl⟩

theorem lookup_eq_of_canonical (h : RowsMoved t t') {k : CandleKey}
    (hk : caseInterval k.interval = none) (hc : t.lookup k = some c) : t'.lookup k = some c := by
  obtain ⟨hrow, rfl⟩ := KeyedTable.lookup_eq_some_iff.mp hc
  exact KeyedTable.lookup_eq_some_iff.mpr
    ⟨(h c).mpr (Or.inl ⟨hrow, nonCanonical_eq_false_iff.mpr hk⟩), rfl⟩

/-- A free canonical key goes to the row that maps to it. -/
theorem lookup_of_free (h : RowsMoved t t') (hcase : caseInterval old = some new)
    {coinId vsCurrency : String} {ts : ℤ} (hfree : t.lookup ⟨coinId, vsCurrency, new, ts⟩ = none) :
    t'.lookup ⟨coinId, vsCurrency, new, ts⟩ =
      (t.lookup ⟨coinId, vsCurrency, old, ts⟩).map fun c => { c with interval := new } := by
  have hnone (z : CoinCandle) (hz : z ∈ t.rows) : z.key ≠ ⟨coinId, vsCurrency, new, ts⟩ := by
    intro hkey
    rw [KeyedTable.lookup_eq_some_iff.mpr ⟨hz, hkey⟩] at hfree
    cases hfree
  ext z
  rw [KeyedTable.lookup_eq_some_iff, h, Option.map_eq_some_iff]
  constructor
  · rintro ⟨⟨hz, -⟩ | ⟨c, hc, rfl⟩, hkey⟩
    · exact absurd hkey (hnone z hz)
    · obtain ⟨hrow, hnon, -⟩ := mem_remaining.mp hc
      obtain ⟨new', hcase'⟩ := nonCanonical_iff.mp hnon
      simp only [key_canonicalRow, canonicalKey, hcase', Option.getD_some,
        CandleKey.mk.injEq] at hkey
      obtain ⟨rfl, rfl, rfl, rfl⟩ := hkey
      refine ⟨c, KeyedTable.lookup_eq_some_iff.mpr ⟨hrow, ?_⟩, ?_⟩
      · rw [CoinCandle.key, caseInterval_inj hcase' hcase]
      · rw [canonicalRow, hcase', Option.getD_some]
  · rintro ⟨c, hc, rfl⟩
    obtain ⟨hrow, hkey⟩ := KeyedTable.lookup_eq_some_iff.mp hc
    simp only [CoinCandle.key, CandleKey.mk.injEq] at hkey
    obtain ⟨rfl, rfl, rfl, rfl⟩ := hkey
    refine ⟨Or.inr ⟨c, mem_remaining.mpr ⟨hrow, ?_, ?_⟩, ?_⟩, rfl⟩
    · exact nonCanonical_iff.mpr ⟨new, hcase⟩
    · intro twin htwin hkey
      rw [canonicalKey, hcase, Option.getD_some] at hkey
      exact hnone twin htwin hkey
    · rw [canonicalRow, hcase, Option.getD_some]

theorem lookup_untouched (h : RowsMoved t t') {k : CandleKey}
    (hk : k.interval ∉ ["daily", "1d", "hourly", "1h"]) : t'.lookup k = t.lookup k := by
  simp only [List.mem_cons, List.not_mem_nil, or_false, not_or] at hk
  have hcase : caseInterval k.interval = none := by simp [caseInterval, hk]
  cases hold : t.lookup k with
  | some c => exact h.lookup_eq_of_canonical hcase hold
  | none =>
    rw [Option.eq_none_iff_forall_ne_some]
    intro z hz
    obtain ⟨hrow, rfl⟩ := KeyedTable.lookup_eq_some_iff.mp hz
    rcases (h z).mp hrow with ⟨hstored, -⟩ | ⟨c, hc, rfl⟩
    · rw [KeyedTable.mem_rows_iff.mp hstored] at hold
      cases hold
    · obtain ⟨new, hnew⟩ := nonCanonical_iff.mp (mem_remaining.mp hc).2.1
      simp only [key_canonicalRow, canonicalKey, hnew, Option.getD_some] at hk
      rcases caseInterval_eq_some_iff.mp hnew with ⟨-, rfl⟩ | ⟨-, rfl⟩
      · exact absurd rfl hk.2.1
      · exact absurd rfl hk.2.2.2

theorem canonicalised (h : RowsMoved t t') : Canonicalised t t' := by
  constructor
  case canonical =>
    intro c hc
    simpa [nonCanonical] using h.canonical_of_mem hc
  case occupied =>
    intro k
    rw [Option.isSome_iff_exists]
    constructor
    · rintro ⟨z, hz⟩
      obtain ⟨hrow, rfl⟩ := KeyedTable.lookup_eq_some_iff.mp hz
      exact h.exists_canonicalKey hrow
    · rintro ⟨c, hc, rfl⟩
      obtain ⟨z, hz, hkey⟩ := h.exists_mem hc
      exact ⟨z, KeyedTable.lookup_eq_some_iff.mpr ⟨hz, hkey⟩⟩
  case renamed =>
    intro old new hcase coinId vsCurrency ts
    cases htwin : t.lookup ⟨coinId, vsCurrency, new, ts⟩ with
    | some twin =>
      rw [Option.some_or]
      exact h.lookup_eq_of_canonical (caseInterval_canonical hcase) htwin
    | none =>
      rw [Option.none_or]
      exact h.lookup_of_free hcase htwin
  case untouched =>
    intro k hk
    exact h.lookup_untouched hk

end RowsMoved

theorem canonicaliseIntervals_of_canonical
    (h : ∀ c ∈ t.rows, c.interval ≠ "daily" ∧ c.interval ≠ "hourly")
    (hvisited : visited.Perm (remaining t)) : canonicaliseIntervals t visited = some t := by
  have hfalse (c : CoinCandle) (hc : c ∈ t.rows) : nonCanonical c = false := by
    simpa [nonCanonical] using h c hc
  have hnone : remaining t = [] := by
    rw [List.eq_nil_iff_forall_not_mem]
    intro c hc
    obtain ⟨hrow, hnon, -⟩ := mem_remaining.mp hc
    rw [hfalse c hrow] at hnon
    cases hnon
  have hsame : dropShadowed t = t := by
    rw [← KeyedTable.rows_inj]
    apply List.filter_eq_self.mpr
    intro c hc
    simp [shadowed, hfalse c hc]
  rw [hnone] at hvisited
  rw [canonicaliseIntervals, hsame, hvisited.eq_nil]
  rfl

/-- The migration goes through on every table and in every order of its update, brings the
rows under their canonical keys, and run again returns the table it left. -/
theorem canonicaliseIntervals_exact (t : CandleTable) (visited : List CoinCandle)
    (h : visited.Perm (remaining t)) :
    ∃ t', canonicaliseIntervals t visited = some t' ∧ Canonicalised t t' ∧
      ∀ again, again.Perm (remaining t') → canonicaliseIntervals t' again = some t' := by
  obtain ⟨t', hrun, hmoved⟩ := exists_canonicaliseIntervals t h
  refine ⟨t', hrun, hmoved.canonicalised, ?_⟩
  intro again hagain
  exact canonicaliseIntervals_of_canonical hmoved.canonicalised.canonical hagain

def flatCandle (interval : String) (ts : ℤ) (price : ℚ) : CoinCandle :=
  ⟨"bitcoin", "usd", interval, ts, price, price, price, price, none, "coingecko"⟩

/-- A day stored under both names, an hour under the old one, and a week. -/
def doubledDay : CandleTable :=
  ⟨[flatCandle "daily" 0 1, flatCandle "1d" 0 2, flatCandle "hourly" 0 3, flatCandle "1w" 0 4],
    by decide⟩

/-- The day keeps its canonical row and the hour is renamed. -/
theorem doubledDay_canonicalised :
    (∃ t', canonicaliseIntervals doubledDay [flatCandle "hourly" 0 3] = some t' ∧
      Canonicalised doubledDay t' ∧
      ∀ again, again.Perm (remaining t') → canonicaliseIntervals t' again = some t') ∧
    (canonicaliseIntervals doubledDay [flatCandle "hourly" 0 3]).map KeyedTable.rows =
      some [flatCandle "1d" 0 2, flatCandle "1w" 0 4, flatCandle "1h" 0 3] :=
  ⟨canonicaliseIntervals_exact doubledDay [flatCandle "hourly" 0 3] (by decide +kernel),
    by decide +kernel⟩

end CandleTable
end CryptoCollector.Db

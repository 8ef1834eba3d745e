import CryptoCollector.Foundations.KeyedTable
import CryptoCollector.Models.Candle

/-!
# The candle table

The rows of `coin_candles`, at most one for a key, and the reads of it that the
candles endpoint and the rollup share.
-/

namespace CryptoCollector.Db
open Models Foundations

abbrev CandleTable := KeyedTable CoinCandle.key

namespace CandleTable

def series (t : CandleTable) (coinId vsCurrency interval : String) : List CoinCandle :=
  t.rows.filter fun c => c.coinId = coinId ∧ c.vsCurrency = vsCurrency ∧ c.interval = interval

variable {t : CandleTable} {coinId vsCurrency interval : String}

@[simp] theorem mem_series {c : CoinCandle} :
    c ∈ t.series coinId vsCurrency interval ↔
      c ∈ t.rows ∧ c.coinId = coinId ∧ c.vsCurrency = vsCurrency ∧ c.interval = interval := by
  simp [series]

theorem key_inj {c c' : CoinCandle} (hc : c ∈ t.rows) (hc' : c' ∈ t.rows) (h : c.key = c'.key) :
    c = c' :=
  List.inj_on_of_nodup_map t.unique hc hc' h

theorem series_ofSeries : OfSeries coinId vsCurrency (t.series coinId vsCurrency interval) := by
  intro c hc
  obtain ⟨-, hcoin, hcurrency, -⟩ := mem_series.mp hc
  exact ⟨hcoin, hcurrency⟩

theorem series_distinctTs : DistinctTs (t.series coinId vsCurrency interval) := by
  have hnodup : (t.series coinId vsCurrency interval).Nodup :=
    (List.Nodup.of_map _ t.unique).filter _
  apply List.Nodup.map_on _ hnodup
  intro c hc c' hc' hts
  obtain ⟨hrow, hcoin, hcurrency, hinterval⟩ := mem_series.mp hc
  obtain ⟨hrow', hcoin', hcurrency', hinterval'⟩ := mem_series.mp hc'
  apply key_inj hrow hrow'
  simp [CoinCandle.key, hcoin, hcoin', hcurrency, hcurrency', hinterval, hinterval', hts]

/-- `SELECT EXISTS`: a row of the exact interval is stored. -/
def nativeExists (t : CandleTable) (coinId interval vsCurrency : String) : Bool :=
  t.rows.any fun c => c.coinId = coinId ∧ c.interval = interval ∧ c.vsCurrency = vsCurrency

/-- `interval_coverage`: every stored interval of a coin and currency with its
first and last time, as the grouped query has it. -/
def intervalCoverage (t : CandleTable) (coinId vsCurrency : String) : List (String × ℤ × ℤ) :=
  let stored := t.rows.filter fun c => c.coinId = coinId ∧ c.vsCurrency = vsCurrency
  (stored.map CoinCandle.interval).dedup.filterMap fun interval => do
    let earliest ← (sortByTs (t.series coinId vsCurrency interval)).head?
    let latest ← (sortByTsDesc (t.series coinId vsCurrency interval)).head?
    return (interval, earliest.ts, latest.ts)

end CandleTable
end CryptoCollector.Db

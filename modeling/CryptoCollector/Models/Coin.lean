import CryptoCollector.Foundations.KeyedTable
import CryptoCollector.Time

/-!
# Coins

Rows of `tracked_coins`, `coin_market_snapshots` and `coin_quotes`, with the columns
the list endpoints select, and the tables of them.
-/

namespace CryptoCollector.Models
open Foundations DateTime

/-- A row of `tracked_coins`; the poll interval is its text. -/
structure TrackedCoin where
  coinId : String
  symbol : String
  name : String
  status : String
  registeredAt : ℤ
  lastCollectedAt : Option ℤ
  error : Option String
  livePollInterval : Option String
  deriving DecidableEq, Repr

/-- A row of `coin_market_snapshots`. -/
structure CoinMarketSnapshot where
  coinId : String
  vsCurrency : String
  ts : ℤ
  price : ℚ
  marketCap : Option ℚ
  fullyDilutedValuation : Option ℚ
  circulatingSupply : Option ℚ
  totalSupply : Option ℚ
  volume24h : Option ℚ
  source : String
  deriving DecidableEq, Repr

/-- A row of `coin_quotes`. -/
structure CoinQuote where
  coinId : String
  vsCurrency : String
  ts : ℤ
  price : ℚ
  source : String
  deriving DecidableEq, Repr

/-- A primary key `(coin_id, vs_currency, ts)`. -/
structure SeriesKey where
  coinId : String
  vsCurrency : String
  ts : ℤ
  deriving DecidableEq, Repr

def CoinMarketSnapshot.key (s : CoinMarketSnapshot) : SeriesKey := ⟨s.coinId, s.vsCurrency, s.ts⟩

def CoinQuote.key (q : CoinQuote) : SeriesKey := ⟨q.coinId, q.vsCurrency, q.ts⟩

abbrev TrackedCoinTable := KeyedTable TrackedCoin.coinId

/-- A table with such a key; its instants are whole microseconds. -/
structure SeriesTable {α : Type} (key : α → SeriesKey) extends KeyedTable key where
  micros : ∀ row ∈ rows, Micros (key row).ts

namespace SeriesTable

variable {α : Type} {key : α → SeriesKey}

def series (t : SeriesTable key) (coinId vsCurrency : String) : List α :=
  t.rows.filter fun row => (key row).coinId = coinId ∧ (key row).vsCurrency = vsCurrency

variable {t : SeriesTable key} {coinId vsCurrency : String}

theorem mem_series {row : α} :
    row ∈ t.series coinId vsCurrency ↔
      row ∈ t.rows ∧ (key row).coinId = coinId ∧ (key row).vsCurrency = vsCurrency := by
  simp [series]

theorem series_nodup : ((t.series coinId vsCurrency).map fun row => (key row).ts).Nodup := by
  have hkeys : ((t.series coinId vsCurrency).map key).Nodup :=
    t.unique.sublist (List.filter_sublist.map key)
  refine List.Nodup.map_on ?_ (List.Nodup.of_map key hkeys)
  intro row hrow row' hrow' hts
  obtain ⟨-, hcoin, hcurrency⟩ := mem_series.mp hrow
  obtain ⟨-, hcoin', hcurrency'⟩ := mem_series.mp hrow'
  refine List.inj_on_of_nodup_map hkeys hrow hrow' ?_
  rcases hk : key row with ⟨coin, currency, ts⟩
  rcases hk' : key row' with ⟨coin', currency', ts'⟩
  simp only [hk, hk'] at hcoin hcurrency hcoin' hcurrency' hts
  rw [hcoin, hcurrency, hts, hcoin', hcurrency']

theorem series_micros {row : α} (h : row ∈ t.series coinId vsCurrency) : Micros (key row).ts :=
  t.micros row (mem_series.mp h).1

end SeriesTable
end CryptoCollector.Models

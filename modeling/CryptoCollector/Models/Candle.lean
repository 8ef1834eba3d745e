import CryptoCollector.Foundations.Ascending

/-!
# Candles

`OhlcCandle` is what a provider returns, `CoinCandle` a row of `coin_candles`.
Prices and volumes are rationals: the rounding of `Decimal` beyond its 28
digits is left out.
-/

namespace CryptoCollector.Models
open Foundations

/-- A candle as a provider returns it. -/
structure OhlcCandle where
  marketId : ℤ
  interval : String
  ts : ℤ
  openPrice : ℚ
  high : ℚ
  low : ℚ
  close : ℚ
  volume : Option ℚ
  vsCurrency : String
  source : String
  deriving DecidableEq, Repr

/-- A row of `coin_candles`. -/
structure CoinCandle where
  coinId : String
  vsCurrency : String
  interval : String
  ts : ℤ
  openPrice : ℚ
  high : ℚ
  low : ℚ
  close : ℚ
  volume : Option ℚ
  source : String
  deriving DecidableEq, Repr

/-- The row a collector writes for a provider's candle. -/
def CoinCandle.ofOhlc (coinId : String) (c : OhlcCandle) : CoinCandle :=
  ⟨coinId, c.vsCurrency, c.interval, c.ts, c.openPrice, c.high, c.low, c.close, c.volume, c.source⟩

/-- The primary key of `coin_candles`. -/
structure CandleKey where
  coinId : String
  vsCurrency : String
  interval : String
  ts : ℤ
  deriving DecidableEq, Repr

def CoinCandle.key (c : CoinCandle) : CandleKey := ⟨c.coinId, c.vsCurrency, c.interval, c.ts⟩

/-- `sort_by_key(|c| c.ts)`, the order of `ORDER BY ts ASC`. -/
def sortByTs (rows : List CoinCandle) : List CoinCandle := sortBy CoinCandle.ts rows

/-- `sort_by_key(|c| Reverse(c.ts))`, the order of `ORDER BY ts DESC`. -/
def sortByTsDesc (rows : List CoinCandle) : List CoinCandle :=
  sortBy (fun c => OrderDual.toDual c.ts) rows

/-- No two rows have the same time, as in one series of the table. -/
def DistinctTs (rows : List CoinCandle) : Prop := (rows.map CoinCandle.ts).Nodup

instance (rows : List CoinCandle) : Decidable (DistinctTs rows) :=
  inferInstanceAs (Decidable (List.Nodup _))

/-- The rows belong to one coin and currency. -/
def OfSeries (coinId vsCurrency : String) (rows : List CoinCandle) : Prop :=
  ∀ c ∈ rows, c.coinId = coinId ∧ c.vsCurrency = vsCurrency

section Rows

variable {rows rows' : List CoinCandle}

theorem DistinctTs.sublist (h : DistinctTs rows) (hsub : rows'.Sublist rows) : DistinctTs rows' :=
  List.Nodup.sublist (hsub.map CoinCandle.ts) h

@[simp] theorem mem_sortByTs {c : CoinCandle} : c ∈ sortByTs rows ↔ c ∈ rows := mem_sortBy _

@[simp] theorem mem_sortByTsDesc {c : CoinCandle} : c ∈ sortByTsDesc rows ↔ c ∈ rows :=
  mem_sortBy _

theorem sortByTs_ascending (h : DistinctTs rows) : Ascending CoinCandle.ts (sortByTs rows) :=
  sortBy_ascending _ h

theorem sortByTsDesc_ascending (h : DistinctTs rows) :
    Ascending (fun c => OrderDual.toDual c.ts) (sortByTsDesc rows) := by
  apply sortBy_ascending
  have hdual : ((rows.map CoinCandle.ts).map OrderDual.toDual).Nodup :=
    List.Nodup.map OrderDual.toDual.injective h
  rwa [List.map_map] at hdual

end Rows
end CryptoCollector.Models

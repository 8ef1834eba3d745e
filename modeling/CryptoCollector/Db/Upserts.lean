import CryptoCollector.Db.Candles
import CryptoCollector.Time

/-!
# Candle upserts

The batched upsert of `coin_candles` under its two conflict policies: providers
write over any row, the rollup only over rollup rows. Notifications are left out.
-/

namespace CryptoCollector.Db
open Models Foundations DateTime

/-- Which row a colliding write may replace. -/
inductive CandleConflictPolicy where
  | nativeOverwrite
  | rollupGuarded
  deriving DecidableEq, Repr

/-- `source LIKE 'rollup:%'`. -/
def isRollup (c : CoinCandle) : Bool := "rollup:".toList.isPrefixOf c.source.toList

/-- The `WHERE` of `DO UPDATE`. -/
def CandleConflictPolicy.givesWay : CandleConflictPolicy → CoinCandle → Bool
  | .nativeOverwrite, _ => true
  | .rollupGuarded, old => isRollup old

/-- The row a bound candle is stored as. -/
def stored (c : CoinCandle) : CoinCandle := { c with ts := storeTimestamptz c.ts }

/-- `batched_upsert_coin_candles`, of candles whose keys differ. -/
def batchedUpsertCoinCandles (t : CandleTable) (candles : List CoinCandle)
    (conflict : CandleConflictPolicy) : CandleTable :=
  t.upsertAll conflict.givesWay (candles.map stored)

theorem stored_of_micros {c : CoinCandle} (h : Micros c.ts) : stored c = c := by
  rw [stored, storeTimestamptz_of_micros h]

theorem isRollup_of_label {c : CoinCandle} {label : String} (h : c.source = "rollup:" ++ label) :
    isRollup c = true := by
  rw [isRollup, h, String.toList_append, List.isPrefixOf_iff_prefix]
  exact List.prefix_append _ _

end CryptoCollector.Db

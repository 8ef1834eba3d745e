import Mathlib.Tactic

/-!
# Cycle overlay rows

`CycleOverlayPoint` is what a read of `cycle_overlay_points` returns. A row of
the table also names the model it came from.
-/

namespace CryptoCollector.Models

structure CycleOverlayPoint where
  coinId : String
  vsCurrency : String
  cycleNumber : ℤ
  halvingDate : ℤ
  daysSinceHalving : ℤ
  ts : ℤ
  price : ℚ
  normHalving : ℚ
  normCycleLow : ℚ
  halvingBaselineApproximate : Bool
  projected : Bool
  priceLow : Option ℚ
  priceHigh : Option ℚ
  deriving DecidableEq, Repr

structure CycleOverlayRow where
  point : CycleOverlayPoint
  projectionModel : String
  deriving DecidableEq, Repr

structure CycleOverlayRowKey where
  coinId : String
  vsCurrency : String
  projectionModel : String
  cycleNumber : ℤ
  daysSinceHalving : ℤ
  deriving DecidableEq, Repr

def CycleOverlayRow.key (r : CycleOverlayRow) : CycleOverlayRowKey :=
  ⟨r.point.coinId, r.point.vsCurrency, r.projectionModel, r.point.cycleNumber,
    r.point.daysSinceHalving⟩

end CryptoCollector.Models

import CryptoCollector.Api.DecimalVolumes

/-!
# Folding a fold in decimals

Candles folded from candles of a middle interval have the times, the prices and the missing
volumes of those folded at once. They have the volumes too where no sum is rounded, at
either level or at once.
-/

namespace CryptoCollector.Api.Decimal
open Models Foundations DateTime

variable {adder : CheckedAdd ℚ} {targetSecs midSecs sourceSecs now : ℤ}
  {source mids out direct : List CoinCandle}

theorem IsFoldOf.outline {items : List CoinCandle} {c : CoinCandle} (h : IsFoldOf adder items c) :
    OutlineOf items c where
  toPricesOf := h.toPricesOf
  volume_none_iff := by
    constructor
    · intro hnone
      by_contra hall
      push Not at hall
      obtain ⟨total, -, hvolume⟩ := h.volume_sum hall
      rw [hnone] at hvolume
      cases hvolume
    · exact h.volume_null

theorem outlined (h : FoldedTo (IsFoldOf adder) targetSecs sourceSecs now source out) :
    FoldedTo OutlineOf targetSecs sourceSecs now source out where
  descending := h.descending
  emits := h.emits
  folds c hc := by
    obtain ⟨b, hb, hts, hfold⟩ := h.folds c hc
    exact ⟨b, hb, hts, hfold.outline⟩

/-- Aggregating the aggregate of a middle interval, under any labels, and aggregating the
source at once. -/
theorem aggregateCandles_compose (adder : CheckedAdd ℚ) (source : List CoinCandle)
    (targetSecs midSecs sourceSecs now : ℤ) (label midInterval midLabel targetInterval : String)
    (relabel : CoinCandle → CoinCandle) (hsource : 0 < sourceSecs) (hmid : 0 < midSecs)
    (htarget : 0 < targetSecs) (hdvdMid : sourceSecs ∣ midSecs) (hdvd : midSecs ∣ targetSecs)
    (haligned : AlignedTo sourceSecs source) (hdistinct : DistinctTs source)
    (hclosed : AllClosed targetSecs now source) (hrelabel : ∀ c, ohlcv (relabel c) = ohlcv c) :
    (∀ mids out direct,
      aggregateCandles adder source midSecs sourceSecs now label midInterval = some mids →
      aggregateCandles adder (mids.map relabel) targetSecs midSecs now midLabel targetInterval =
        some out →
      aggregateCandles adder source targetSecs sourceSecs now label targetInterval =
        some direct →
      (out.map fun c => (c.ts, ohlc c, c.volume.isSome)) =
        direct.map fun c => (c.ts, ohlc c, c.volume.isSome)) ∧
    (VolumesFit adder midSecs sourceSecs now source →
      VolumesFit adder targetSecs sourceSecs now source →
      (∀ mids, aggregateCandles adder source midSecs sourceSecs now label midInterval =
        some mids → VolumesFit adder targetSecs midSecs now (mids.map relabel)) →
      ∃ mids out direct,
        aggregateCandles adder source midSecs sourceSecs now label midInterval = some mids ∧
        aggregateCandles adder (mids.map relabel) targetSecs midSecs now midLabel
          targetInterval = some out ∧
        aggregateCandles adder source targetSecs sourceSecs now label targetInterval =
          some direct ∧
        out.map ohlcv = direct.map ohlcv) := by
  have hdvdTarget := hdvdMid.trans hdvd
  constructor
  · intro mids out direct hmids hout hdirect
    have hmidsTo := (outlined (foldedTo_of_aggregateCandles hsource hmid hdvdMid haligned
      hdistinct hmids)).relabel refolds_outlineOf hrelabel
    have houtTo := outlined (foldedTo_of_aggregateCandles hmid htarget hdvd hmidsTo.alignedTo
      hmidsTo.distinct hout)
    have hdirectTo := outlined (foldedTo_of_aggregateCandles hsource htarget hdvdTarget haligned
      hdistinct hdirect)
    exact FoldedTo.compose refolds_outlineOf hmidsTo houtTo hdirectTo hsource hmid htarget
      hdvdMid hdvd hdistinct hclosed
  · intro hfitMid hfitTarget hfitMids
    have hmids := aggregateCandles_of_volumesFit label midInterval hsource hmid hdvdMid haligned
      hdistinct hfitMid
    have hmidsTo := (aggregateCandles_foldedTo now label midInterval hsource hmid hdvdMid haligned
      hdistinct).relabel refolds_isFoldOf hrelabel
    have hout := aggregateCandles_of_volumesFit midLabel targetInterval hmid htarget hdvd
      hmidsTo.alignedTo hmidsTo.distinct (hfitMids _ hmids)
    have houtTo := aggregateCandles_foldedTo now midLabel targetInterval hmid htarget hdvd
      hmidsTo.alignedTo hmidsTo.distinct
    have hdirect := aggregateCandles_of_volumesFit label targetInterval hsource htarget hdvdTarget
      haligned hdistinct hfitTarget
    have hdirectTo := aggregateCandles_foldedTo now label targetInterval hsource htarget
      hdvdTarget haligned hdistinct
    exact ⟨_, _, _, hmids, hout, hdirect, FoldedTo.compose refolds_isFoldOf hmidsTo houtTo
      hdirectTo hsource hmid htarget hdvdMid hdvd hdistinct hclosed⟩

/-- Two full hours before the epoch and one after it, the last with a volume missing. -/
def fullHours : List CoinCandle :=
  [halfHour (-4) 4 2 (some 1), halfHour (-3) 5 3 (some 2), halfHour (-2) 7 6 (some 3),
    halfHour (-1) 6 1 (some 4), halfHour 0 9 8 none, halfHour 1 8 7 (some 5)]

def rolledUp (c : CoinCandle) : CoinCandle := { c with source := "rollup:30m" }

theorem fullHours_mids :
    aggregateCandles decimalAdd fullHours 3600 1800 (fromTimestamp 7200) "30m" "1h" =
      some (Api.aggregateCandles fullHours 3600 1800 (fromTimestamp 7200) "30m" "1h") := by
  decide +kernel

theorem fullHours_compose :
    ∃ mids out direct,
      aggregateCandles decimalAdd fullHours 3600 1800 (fromTimestamp 7200) "30m" "1h" =
        some mids ∧
      aggregateCandles decimalAdd (mids.map rolledUp) 7200 3600 (fromTimestamp 7200) "1h" "2h" =
        some out ∧
      aggregateCandles decimalAdd fullHours 7200 1800 (fromTimestamp 7200) "30m" "2h" =
        some direct ∧
      out.map ohlcv = direct.map ohlcv ∧
      direct.map (fun c => (c.ts, c.openPrice, c.close, c.volume)) =
        [(fromTimestamp (-7200), 2, 6, some 10)] := by
  have hcompose := (aggregateCandles_compose decimalAdd fullHours 7200 3600 1800
    (fromTimestamp 7200) "30m" "1h" "1h" "2h" rolledUp (by decide) (by decide) (by decide)
    (by decide) (by decide) (by decide) (by decide) (by decide) fun _ => rfl).2
  have hvolumes : ∀ v ∈ fullHours.filterMap CoinCandle.volume, AtScale 0 v := by decide +kernel
  have hsum : (fullHours.filterMap CoinCandle.volume).sum * 10 ^ 0 < (2 ^ 96 : ℕ) := by
    decide +kernel
  obtain ⟨mids, out, direct, hmids, hout, hdirect, heq⟩ := hcompose
    (volumesFit_of_atScale (Nat.zero_le 28) hvolumes hsum)
    (volumesFit_of_atScale (Nat.zero_le 28) hvolumes hsum) (by
      intro mids hmids
      obtain rfl := Option.some.inj (hmids.symm.trans fullHours_mids)
      exact volumesFit_of_atScale (Nat.zero_le 28) (by decide +kernel) (by decide +kernel))
  have hvalues : (aggregateCandles decimalAdd fullHours 7200 1800 (fromTimestamp 7200) "30m"
      "2h").map (List.map fun c => (c.ts, c.openPrice, c.close, c.volume)) =
        some [(fromTimestamp (-7200), 2, 6, some 10)] := by
    decide +kernel
  rw [hdirect] at hvalues
  exact ⟨mids, out, direct, hmids, hout, hdirect, heq, Option.some.inj hvalues⟩

/-- The hours round once more than the half hours do at once. -/
theorem hugeHalfHours_compose :
    AlignedTo 1800 hugeHalfHours ∧ DistinctTs hugeHalfHours ∧
      AllClosed 7200 (fromTimestamp 7200) hugeHalfHours ∧
      ((aggregateCandles decimalAdd hugeHalfHours 3600 1800 (fromTimestamp 7200) "30m" "1h").bind
        fun mids => aggregateCandles decimalAdd mids 7200 3600 (fromTimestamp 7200) "1h" "2h").map
          (List.map fun c => (c.ts, c.volume)) =
        some [(fromTimestamp 0, some (7 * 10 ^ 28 + 1))] ∧
      (aggregateCandles decimalAdd hugeHalfHours 7200 1800 (fromTimestamp 7200) "30m" "2h").map
          (List.map fun c => (c.ts, c.volume)) =
        some [(fromTimestamp 0, some (7 * 10 ^ 28))] := by
  decide +kernel

end CryptoCollector.Api.Decimal

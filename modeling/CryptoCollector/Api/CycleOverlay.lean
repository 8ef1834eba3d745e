import CryptoCollector.Api.Candles
import CryptoCollector.Collectors.CycleRecompute

/-!
# The cycle projection endpoint

`GET /v1/coins/{coin_id}/cycle-projection/{model}`: the real points of a coin with
those of one projection, page by page. Without `as_of` they are read from
`cycle_overlay_points`, with it they are computed from the candles up to it.
-/

namespace CryptoCollector.Api
open Models Collectors Db Foundations

inductive ProjectionModel where
  | replay
  | composite
  deriving DecidableEq, Repr

def ProjectionModel.asStr : ProjectionModel → String
  | .replay => "replay"
  | .composite => "composite"

/-- `FromStr`: an exact match only. -/
def ProjectionModel.fromStr (s : String) : Except ApiError ProjectionModel :=
  match s with
  | "replay" => .ok .replay
  | "composite" => .ok .composite
  | other => .error (.badRequest ("unknown cycle-projection model '" ++ other ++
      "'; expected 'replay' or 'composite'"))

structure CycleOverlayKey where
  cycleNumber : ℤ
  daysSinceHalving : ℤ
  deriving DecidableEq, Repr

/-- Keys compare as row values do. -/
def CycleOverlayKey.order (k : CycleOverlayKey) : ℤ ×ₗ ℤ :=
  toLex (k.cycleNumber, k.daysSinceHalving)

structure ListCycleOverlayParams where
  vsCurrency : Option String
  cycle : Option ℤ
  cursor : Option String
  limit : Option ℤ
  asOf : Option ℤ
  deriving DecidableEq, Repr

def pointKey (p : CycleOverlayPoint) : CycleOverlayKey := ⟨p.cycleNumber, p.daysSinceHalving⟩

def pointOrder (p : CycleOverlayPoint) : ℤ ×ₗ ℤ := (pointKey p).order

/-- The `cycle` filter and the keyset condition. -/
def inPage (cycle : Option ℤ) (cursor : Option CycleOverlayKey) (p : CycleOverlayPoint) : Bool :=
  cycle.all (fun c => p.cycleNumber = c) && cursor.all fun k => k.order < pointOrder p

/-- Sorted by key, one point more than the page. -/
def orderedPage (cycle : Option ℤ) (cursor : Option CycleOverlayKey) (limit : ℤ)
    (points : List CycleOverlayPoint) : List CycleOverlayPoint :=
  (sortBy pointOrder (points.filter (inPage cycle cursor))).take (limit + 1).toNat

/-- The `SELECT` on `cycle_overlay_points`. -/
def tableItems (overlay : OverlayTable) (coinId vsCurrency : String) (cycle : Option ℤ)
    (cursor : Option CycleOverlayKey) (limit : ℤ) (model : ProjectionModel) :
    List CycleOverlayPoint :=
  let selected := overlay.rows.filter fun r => r.point.coinId = coinId ∧
    r.point.vsCurrency = vsCurrency ∧ (r.projectionModel = "real" ∨ r.projectionModel = model.asStr)
  orderedPage cycle cursor limit (selected.map CycleOverlayRow.point)

def projectAsOfForModel (math : DecimalMath) (model : ProjectionModel) (daily : List DailyClose)
    (real : List OverlayPoint) (coinId vsCurrency : String) : Option (List OverlayPoint) :=
  match model with
  | .replay => projectCycleRepeat daily real
  | .composite => projectComposite math daily real (useBtcAnchors coinId vsCurrency)

def buildAsOfPage (real projected : List OverlayPoint) (coinId vsCurrency : String)
    (cycle : Option ℤ) (cursor : Option CycleOverlayKey) (limit : ℤ) : List CycleOverlayPoint :=
  orderedPage cycle cursor limit ((real ++ projected).map (overlayPointToModel coinId vsCurrency))

/-- `compute_as_of_page` once the series is loaded. -/
def computeAsOfPage (math : DecimalMath) (daily : List DailyClose) (coinId vsCurrency : String)
    (cycle : Option ℤ) (cursor : Option CycleOverlayKey) (limit : ℤ) (model : ProjectionModel) :
    Option (List CycleOverlayPoint) := do
  let real ← computeOverlay daily
  let projected ← projectAsOfForModel math model daily real coinId vsCurrency
  return buildAsOfPage real projected coinId vsCurrency cycle cursor limit

/-- `list_cycle_projection_data` with `list_overlay_for_model`. `daily` is what
`load_daily_series` returns where `as_of` is given; no page is a panic. -/
def listCycleProjectionData (math : DecimalMath) (codec : KeysetCodec CycleOverlayKey)
    (overlay : OverlayTable) (daily : List DailyClose) (coinId model : String)
    (params : ListCycleOverlayParams) : Except ApiError (Option (Page CycleOverlayPoint)) := do
  let model ← ProjectionModel.fromStr model
  let limit ← (validateLimit params.limit).mapError .badRequest
  let cursor ← (params.cursor.mapM codec.decode).mapError .badRequest
  let vsCurrency := resolveCurrency params.vsCurrency
  let items := match params.asOf with
    | none => some (tableItems overlay coinId vsCurrency params.cycle cursor limit model)
    | some _ => computeAsOfPage math daily coinId vsCurrency params.cycle cursor limit model
  return items.map fun items => paginate codec.encode items limit pointKey

/-- The endpoint may answer a request with `response`. -/
def Answers (math : DecimalMath) (codec : KeysetCodec CycleOverlayKey) (t : CandleTable)
    (overlay : OverlayTable) (coinId model : String) (params : ListCycleOverlayParams)
    (response : Except ApiError (Option (Page CycleOverlayPoint))) : Prop :=
  ∃ daily, (∀ asOf ∈ params.asOf,
      LoadsDailySeries t coinId (resolveCurrency params.vsCurrency) (some asOf) daily) ∧
    listCycleProjectionData math codec overlay daily coinId model params = response

end CryptoCollector.Api

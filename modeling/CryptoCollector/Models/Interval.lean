import Mathlib.Tactic

/-!
# Candle intervals

The fixed-duration interval vocabulary, its spellings and its durations.
-/

namespace CryptoCollector.Models

inductive ApiInterval where
  | m1 | m3 | m5 | m15 | m30
  | h1 | h2 | h4 | h6 | h8 | h12
  | d1 | d3 | d4
  | w1
  deriving DecidableEq, Repr

namespace ApiInterval

/-- The subset the public candles endpoint admits. -/
def apiFacing : List ApiInterval := [m1, m5, m15, h1, h4, d1, w1]

def asStr : ApiInterval → String
  | m1 => "1m"
  | m3 => "3m"
  | m5 => "5m"
  | m15 => "15m"
  | m30 => "30m"
  | h1 => "1h"
  | h2 => "2h"
  | h4 => "4h"
  | h6 => "6h"
  | h8 => "8h"
  | h12 => "12h"
  | d1 => "1d"
  | d3 => "3d"
  | d4 => "4d"
  | w1 => "1w"

def secs : ApiInterval → ℤ
  | m1 => 60
  | m3 => 180
  | m5 => 300
  | m15 => 900
  | m30 => 1800
  | h1 => 3600
  | h2 => 7200
  | h4 => 14400
  | h6 => 21600
  | h8 => 28800
  | h12 => 43200
  | d1 => 86400
  | d3 => 259200
  | d4 => 345600
  | w1 => 604800

def isApiFacing (i : ApiInterval) : Bool := apiFacing.contains i

/-- `FromStr`: every other string is rejected. -/
def fromStr (s : String) : Option ApiInterval :=
  match s with
  | "1m" => some m1
  | "3m" => some m3
  | "5m" => some m5
  | "15m" => some m15
  | "30m" => some m30
  | "1h" => some h1
  | "2h" => some h2
  | "4h" => some h4
  | "6h" => some h6
  | "8h" => some h8
  | "12h" => some h12
  | "1d" => some d1
  | "3d" => some d3
  | "4d" => some d4
  | "1w" => some w1
  | _ => none

def fromApiStr (s : String) : Option ApiInterval := (fromStr s).filter isApiFacing

@[simp] theorem fromStr_asStr (i : ApiInterval) : fromStr i.asStr = some i := by
  cases i <;> rfl

theorem asStr_of_fromStr {s : String} {i : ApiInterval} (h : fromStr s = some i) : i.asStr = s := by
  unfold fromStr at h
  split at h <;> cases h <;> rfl

theorem secs_pos (i : ApiInterval) : 0 < i.secs := by
  cases i <;> decide

theorem secs_injective : Function.Injective secs := by
  intro i j h
  cases i <;> cases j <;> first | rfl | (revert h; decide)

end ApiInterval
end CryptoCollector.Models

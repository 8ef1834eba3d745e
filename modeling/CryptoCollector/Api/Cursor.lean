import Mathlib.Tactic

/-!
# Keyset cursors

A cursor is an opaque string for the ordering key of the last row returned. The
encoding, base64 of JSON, is a parameter that decodes what it encoded.
-/

namespace CryptoCollector.Api

/-- The errors the candles handler answers with. -/
inductive ApiError where
  | badRequest (message : String)
  | notFound (message : String)
  deriving DecidableEq, Repr

/-- `ensure_coin_exists`, of the ids in `tracked_coins`. -/
def ensureTracked (trackedCoins : List String) (coinId : String) : Except ApiError Unit :=
  if coinId ∈ trackedCoins then .ok ()
  else .error (.notFound ("coin '" ++ coinId ++ "' not found"))

structure TsKey where
  ts : ℤ
  deriving DecidableEq, Repr

/-- `encode_keyset_cursor` and `decode_keyset_cursor` at one key type. -/
structure KeysetCodec (K : Type) where
  encode : K → String
  decode : String → Except String K
  decode_encode : ∀ key, decode (encode key) = .ok key

def defaultLimit : ℤ := 100

def maxLimit : ℤ := 1000

def validateLimit : Option ℤ → Except String ℤ
  | none => .ok defaultLimit
  | some n =>
    if 1 ≤ n ∧ n ≤ maxLimit then .ok n
    else .error ("limit must be between 1 and " ++ toString maxLimit)

theorem validateLimit_pos {limit : Option ℤ} {n : ℤ} (h : validateLimit limit = .ok n) :
    1 ≤ n ∧ n ≤ maxLimit := by
  cases limit with
  | none =>
    cases h
    decide
  | some m =>
    simp only [validateLimit] at h
    split_ifs at h with hrange
    cases h
    exact hrange

structure Page (α : Type) where
  items : List α
  nextCursor : Option String
  deriving DecidableEq, Repr

/-- `paginate`: of more than `limit` items the first `limit`, with the cursor of
the last of them. -/
def paginate {α K : Type} (encode : K → String) (items : List α) (limit : ℤ) (keyFn : α → K) :
    Page α :=
  if limit < items.length then
    let kept := items.take limit.toNat
    ⟨kept, kept.getLast?.map fun item => encode (keyFn item)⟩
  else
    ⟨items, none⟩

end CryptoCollector.Api

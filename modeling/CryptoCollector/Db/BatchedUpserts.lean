import CryptoCollector.Db.Upserts

/-!
# Batched upserts as transactions

One statement writes a page of candles that travels as ten column arrays. It is
aborted as a whole when a candle's coin is not tracked or two candles propose the
same key; the row-at-a-time upsert is a transaction for each candle. The two leave
the same table exactly when nothing is aborted or nothing would have changed.
-/

namespace CryptoCollector.Db
open Models Foundations

/-- Why an upsert is aborted: the foreign key of `coin_id`, or a statement that
would write one row twice. -/
inductive UpsertError where
  | untrackedCoin
  | rowTwice
  deriving DecidableEq, Repr

/-- The arrays bound to `BATCHED_UPSERT_COIN_CANDLES_*_SQL`. -/
structure CandleColumns where
  coinIds : List String
  vsCurrencies : List String
  intervals : List String
  tss : List ℤ
  opens : List ℚ
  highs : List ℚ
  lows : List ℚ
  closes : List ℚ
  volumes : List (Option ℚ)
  sources : List String

def CandleColumns.ofCandles (candles : List CoinCandle) : CandleColumns where
  coinIds := candles.map CoinCandle.coinId
  vsCurrencies := candles.map CoinCandle.vsCurrency
  intervals := candles.map CoinCandle.interval
  tss := candles.map CoinCandle.ts
  opens := candles.map CoinCandle.openPrice
  highs := candles.map CoinCandle.high
  lows := candles.map CoinCandle.low
  closes := candles.map CoinCandle.close
  volumes := candles.map CoinCandle.volume
  sources := candles.map CoinCandle.source

def CandleColumns.row (columns : CandleColumns) (i : ℕ) : Option CoinCandle := do
  let coinId ← columns.coinIds[i]?
  let vsCurrency ← columns.vsCurrencies[i]?
  let interval ← columns.intervals[i]?
  let ts ← columns.tss[i]?
  let openPrice ← columns.opens[i]?
  let high ← columns.highs[i]?
  let low ← columns.lows[i]?
  let close ← columns.closes[i]?
  let volume ← columns.volumes[i]?
  let source ← columns.sources[i]?
  return stored ⟨coinId, vsCurrency, interval, ts, openPrice, high, low, close, volume, source⟩

/-- `SELECT * FROM UNNEST(..)` of arrays of one length. -/
def CandleColumns.unnest (columns : CandleColumns) : List CoinCandle :=
  (List.range columns.coinIds.length).filterMap columns.row

theorem CandleColumns.unnest_ofCandles (candles : List CoinCandle) :
    (ofCandles candles).unnest = candles.map stored := by
  induction candles with
  | nil => rfl
  | cons candle candles ih =>
    have hfirst : (ofCandles (candle :: candles)).row 0 = some (stored candle) := rfl
    have hrest : (ofCandles (candle :: candles)).row ∘ Nat.succ = (ofCandles candles).row := rfl
    have hlength : (ofCandles (candle :: candles)).coinIds.length =
        (ofCandles candles).coinIds.length + 1 := rfl
    rw [unnest, hlength, List.range_succ_eq_map, List.filterMap_cons_some hfirst,
      List.filterMap_map, hrest, ← unnest, ih, List.map_cons]

section Transactions

variable (tracked : String → Bool)

/-- The table after a transaction that may have been aborted. -/
def committed (t : CandleTable) : Except UpsertError CandleTable → CandleTable
  | .ok t' => t'
  | .error _ => t

/-- `upsert_coin_candle`, under the policy of the batch it is compared with. -/
def upsertCoinCandle (t : CandleTable) (candle : CoinCandle) (conflict : CandleConflictPolicy) :
    Except UpsertError CandleTable :=
  if tracked candle.coinId then .ok (t.upsert conflict.givesWay (stored candle))
  else .error .untrackedCoin

/-- The same upsert for one candle after the other. -/
def upsertEachCoinCandle (t : CandleTable) (candles : List CoinCandle)
    (conflict : CandleConflictPolicy) : CandleTable :=
  candles.foldl (fun t candle => committed t (upsertCoinCandle tracked t candle conflict)) t

/-- `batched_upsert_coin_candles` of any candles. -/
def tryBatchedUpsertCoinCandles (t : CandleTable) (candles : List CoinCandle)
    (conflict : CandleConflictPolicy) : Except UpsertError CandleTable :=
  if candles.isEmpty then
    .ok t
  else
    match t.insertOnConflict conflict.givesWay (CandleColumns.ofCandles candles).unnest with
    | none => .error .rowTwice
    | some t' => if candles.all fun c => tracked c.coinId then .ok t' else .error .untrackedCoin

/-- The candles one statement takes: their coins are tracked, their keys differ. -/
def Accepted (candles : List CoinCandle) : Prop :=
  (candles.map fun c => (stored c).key).Nodup ∧ ∀ c ∈ candles, tracked c.coinId = true

instance (candles : List CoinCandle) : Decidable (Accepted tracked candles) :=
  inferInstanceAs (Decidable (_ ∧ _))

/-- What stands under a key after some of its candles are written in their order. -/
def writtenInOrder (conflict : CandleConflictPolicy) (row : Option CoinCandle)
    (candles : List CoinCandle) : Option CoinCandle :=
  candles.foldl (fun row c => KeyedTable.overwrite conflict.givesWay (stored c) row) row

/-- The candles of one key that get past the foreign key. -/
def trackedAt (candles : List CoinCandle) (k : CandleKey) : List CoinCandle :=
  candles.filter fun c => tracked c.coinId && decide ((stored c).key = k)

/-- Every key's candles, written in their order, leave its row as it is. -/
def Settled (t : CandleTable) (candles : List CoinCandle) (conflict : CandleConflictPolicy) :
    Prop :=
  ∀ k ∈ candles.map fun c => (stored c).key,
    writtenInOrder conflict (t.lookup k) (trackedAt tracked candles k) = t.lookup k

instance (t : CandleTable) (candles : List CoinCandle) (conflict : CandleConflictPolicy) :
    Decidable (Settled tracked t candles conflict) :=
  inferInstanceAs (Decidable (∀ k ∈ _, _))

variable {tracked} {t : CandleTable} {candles : List CoinCandle} {conflict : CandleConflictPolicy}

theorem upsertEachCoinCandle_eq :
    upsertEachCoinCandle tracked t candles conflict =
      t.upsertAll conflict.givesWay ((candles.filter fun c => tracked c.coinId).map stored) := by
  induction candles generalizing t with
  | nil => rfl
  | cons c candles ih =>
    rw [upsertEachCoinCandle, List.foldl_cons, ← upsertEachCoinCandle, ih, upsertCoinCandle]
    by_cases hc : tracked c.coinId = true
    · rw [if_pos hc, List.filter_cons, if_pos hc]
      rfl
    · rw [if_neg hc, List.filter_cons, if_neg hc]
      rfl

theorem lookup_upsertEachCoinCandle (k : CandleKey) :
    (upsertEachCoinCandle tracked t candles conflict).lookup k =
      writtenInOrder conflict (t.lookup k) (trackedAt tracked candles k) := by
  rw [upsertEachCoinCandle_eq, KeyedTable.lookup_upsertAll_fold, List.filter_map, List.foldl_map,
    List.filter_filter, writtenInOrder, trackedAt]
  congr 2
  funext c
  simp [Function.comp, Bool.and_comm]

theorem trackedAt_eq_nil {k : CandleKey} (h : ∀ c ∈ candles, (stored c).key ≠ k) :
    trackedAt tracked candles k = [] := by
  rw [trackedAt, List.filter_eq_nil_iff]
  intro c hc hboth
  simp only [Bool.and_eq_true, decide_eq_true_eq] at hboth
  exact h c hc hboth.2

theorem Accepted.keys_nodup (h : Accepted tracked candles) :
    ((candles.map stored).map CoinCandle.key).Nodup := by
  rw [List.map_map]
  exact h.1

/-- One statement takes its candles as the upserts of them one after the other. -/
theorem tryBatched_of_accepted (t : CandleTable) (conflict : CandleConflictPolicy)
    (h : Accepted tracked candles) :
    ∃ t', tryBatchedUpsertCoinCandles tracked t candles conflict = .ok t' ∧
      KeyedTable.SameRows t' (batchedUpsertCoinCandles t candles conflict) := by
  unfold tryBatchedUpsertCoinCandles
  rw [CandleColumns.unnest_ofCandles]
  have htracked : (candles.all fun c => tracked c.coinId) = true := List.all_eq_true.mpr h.2
  split_ifs with hempty
  · rw [List.isEmpty_iff.mp hempty]
    exact ⟨t, rfl, fun _ => rfl⟩
  · rw [KeyedTable.insertOnConflict_of_nodup h.keys_nodup]
    exact ⟨_, rfl, KeyedTable.sameRows_upsertAll h.keys_nodup⟩

theorem tryBatched_of_not_accepted (t : CandleTable) (conflict : CandleConflictPolicy)
    (h : ¬Accepted tracked candles) :
    ∃ e, tryBatchedUpsertCoinCandles tracked t candles conflict = .error e := by
  have hnonempty : ¬candles.isEmpty = true := by
    intro hempty
    rw [List.isEmpty_iff.mp hempty] at h
    exact h ⟨List.nodup_nil, fun _ hc => absurd hc List.not_mem_nil⟩
  unfold tryBatchedUpsertCoinCandles
  rw [if_neg hnonempty, CandleColumns.unnest_ofCandles]
  by_cases hkeys : ((candles.map stored).map CoinCandle.key).Nodup
  · rw [KeyedTable.insertOnConflict_of_nodup hkeys]
    have htracked : ¬(candles.all fun c => tracked c.coinId) = true := by
      intro hall
      rw [List.map_map] at hkeys
      exact h ⟨hkeys, List.all_eq_true.mp hall⟩
    exact ⟨_, if_neg htracked⟩
  · rw [KeyedTable.insertOnConflict_of_not_nodup hkeys]
    exact ⟨_, rfl⟩

theorem sameRows_upsertEach_of_accepted (h : Accepted tracked candles) :
    KeyedTable.SameRows (batchedUpsertCoinCandles t candles conflict)
      (upsertEachCoinCandle tracked t candles conflict) := by
  have hall : candles.filter (fun c => tracked c.coinId) = candles := List.filter_eq_self.mpr h.2
  intro k
  rw [upsertEachCoinCandle_eq, hall, batchedUpsertCoinCandles]

theorem lookup_tryBatched_native (h : Accepted tracked candles) {c : CoinCandle}
    (hc : c ∈ candles) :
    (committed t (tryBatchedUpsertCoinCandles tracked t candles .nativeOverwrite)).lookup
      (stored c).key = some (stored c) := by
  obtain ⟨t', htry, hsame⟩ := tryBatched_of_accepted t .nativeOverwrite h
  rw [htry, committed, hsame, batchedUpsertCoinCandles,
    KeyedTable.lookup_upsertAll _ t h.keys_nodup]
  cases hfind : (candles.map stored).find? fun x => x.key = (stored c).key with
  | none =>
    have hno := List.find?_eq_none.mp hfind (stored c) (List.mem_map_of_mem hc)
    simp at hno
  | some x =>
    have hx : x.key = (stored c).key := by simpa using List.find?_some hfind
    obtain rfl := List.inj_on_of_nodup_map h.keys_nodup (List.mem_of_find?_eq_some hfind)
      (List.mem_map_of_mem hc) hx
    cases t.lookup (stored c).key <;> rfl

theorem lookup_tryBatched_off {k : CandleKey} (h : ∀ c ∈ candles, (stored c).key ≠ k) :
    (committed t (tryBatchedUpsertCoinCandles tracked t candles conflict)).lookup k =
      t.lookup k := by
  by_cases haccepted : Accepted tracked candles
  · obtain ⟨t', htry, hsame⟩ := tryBatched_of_accepted t conflict haccepted
    rw [htry, committed, hsame, sameRows_upsertEach_of_accepted haccepted,
      lookup_upsertEachCoinCandle, trackedAt_eq_nil h]
    rfl
  · obtain ⟨e, htry⟩ := tryBatched_of_not_accepted t conflict haccepted
    rw [htry]
    rfl

/-- The upserts one after the other change nothing exactly when every key is settled. -/
theorem sameRows_upsertEach_iff_settled :
    KeyedTable.SameRows t (upsertEachCoinCandle tracked t candles conflict) ↔
      Settled tracked t candles conflict := by
  unfold KeyedTable.SameRows
  simp only [lookup_upsertEachCoinCandle]
  constructor
  · intro h k _
    exact (h k).symm
  · intro h k
    by_cases hk : k ∈ candles.map fun c => (stored c).key
    · exact (h k hk).symm
    · have hother : ∀ c ∈ candles, (stored c).key ≠ k := by
        rintro c hc rfl
        exact hk (List.mem_map_of_mem hc)
      rw [trackedAt_eq_nil hother]
      rfl

/-- The batch leaves what the upserts one at a time leave exactly when its statement
is accepted, or they would have changed nothing. -/
theorem batched_upsert_eq_each_iff (tracked : String → Bool) (t : CandleTable)
    (candles : List CoinCandle) (conflict : CandleConflictPolicy) :
    KeyedTable.SameRows (committed t (tryBatchedUpsertCoinCandles tracked t candles conflict))
        (upsertEachCoinCandle tracked t candles conflict) ↔
      Accepted tracked candles ∨ Settled tracked t candles conflict := by
  by_cases haccepted : Accepted tracked candles
  · obtain ⟨t', htry, hsame⟩ := tryBatched_of_accepted t conflict haccepted
    simp only [haccepted, true_or, iff_true, htry, committed]
    intro k
    rw [hsame k, sameRows_upsertEach_of_accepted haccepted k]
  · obtain ⟨e, htry⟩ := tryBatched_of_not_accepted t conflict haccepted
    simp only [haccepted, false_or, htry, committed]
    exact sameRows_upsertEach_iff_settled

/-- Two candles of one key and an empty table: the statement is aborted and nothing
is stored, while the second upsert leaves its candle. -/
theorem batched_upsert_lost : ¬∀ (tracked : String → Bool) (t : CandleTable)
    (candles : List CoinCandle) (conflict : CandleConflictPolicy),
    KeyedTable.SameRows (committed t (tryBatchedUpsertCoinCandles tracked t candles conflict))
      (upsertEachCoinCandle tracked t candles conflict) := by
  intro h
  have hkey := h (fun _ => true) KeyedTable.empty
    [⟨"bitcoin", "usd", "1d", 0, 1, 1, 1, 1, none, "coingecko"⟩,
      ⟨"bitcoin", "usd", "1d", 0, 2, 2, 2, 2, none, "coingecko"⟩] .nativeOverwrite
    ⟨"bitcoin", "usd", "1d", 0⟩
  revert hkey
  decide

end Transactions
end CryptoCollector.Db

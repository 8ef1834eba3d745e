import CryptoCollector.Api.StreamRuns
import CryptoCollector.Collectors.RollupFrame

/-!
# The candle stream and the candle table

The live refresh notifies every candle it writes, the backfill writes the same rows silently and
the rollup writes around them. So a client that was sent all that was notified since it came
holds, for each key, the row that is stored, unless a silent write came last.
-/

namespace CryptoCollector.Api
open Foundations Models Db Collectors

/-- Whether a batch is notified, a candle at a time. -/
inductive CandleNotifyPolicy where
  | perEvent
  | silent
  deriving DecidableEq, Repr

/-- Candles of providers: their source is not a rollup's label. -/
structure NativeBatch where
  candles : List CoinCandle
  native : ∀ c ∈ candles, isRollup c = false

/-- `coin_candles`, and the native candles written to it, newest first. -/
structure CandleStore where
  table : CandleTable
  writes : List (CandleNotifyPolicy × CoinCandle)

/-- A transaction on the candles: a native batch with its policy, or an event of the rollup. -/
inductive CandleWrite where
  | native (batch : NativeBatch) (notify : CandleNotifyPolicy)
  | rollup (event : { event : CandleEvent // event.ofRollup })

/-- The writes of `coin_candles` with what they notify; the coins in `tracked` are there. -/
def candleStore (tracked : String → Bool) : NotifyingStore CandleStore CandleWrite CoinCandle where
  init := ⟨.empty, []⟩
  commit store
    | .native batch notify =>
      match tryBatchedUpsertCoinCandles tracked store.table batch.candles .nativeOverwrite with
      | .error _ => none
      | .ok table => some
        (⟨table, batch.candles.reverse.map (Prod.mk notify) ++ store.writes⟩,
          if notify = .perEvent then batch.candles else [])
    | .rollup event => some (⟨candleStep tracked store.table event, store.writes⟩, [])

/-- The newest candle of a key among some, the newest of which come first. -/
def newestOf (k : CandleKey) (candles : List CoinCandle) : Option CoinCandle :=
  candles.find? fun c => (stored c).key = k

def CandleStore.newestWrite (store : CandleStore) (k : CandleKey) :
    Option (CandleNotifyPolicy × CoinCandle) :=
  store.writes.find? fun write => (stored write.2).key = k

/-- Each key has the row of its newest native write. -/
def CandleStore.Current (store : CandleStore) : Prop :=
  ∀ k write, store.newestWrite k = some write →
    store.table.lookup k = some (stored write.2) ∧ isRollup write.2 = false

section Store

variable {tracked : String → Bool} {store store' : CandleStore} {payloads : List CoinCandle}

theorem candleStore_native {batch : NativeBatch} {notify : CandleNotifyPolicy}
    (h : (candleStore tracked).commit store (.native batch notify) = some (store', payloads)) :
    Accepted tracked batch.candles ∧
      store'.table = committed store.table (tryBatchedUpsertCoinCandles tracked store.table
        batch.candles .nativeOverwrite) ∧
      store'.writes = batch.candles.reverse.map (Prod.mk notify) ++ store.writes ∧
      payloads = if notify = .perEvent then batch.candles else [] := by
  simp only [candleStore] at h
  cases htry : tryBatchedUpsertCoinCandles tracked store.table batch.candles .nativeOverwrite with
  | error e => simp [htry] at h
  | ok table =>
    rw [htry] at h
    obtain ⟨rfl, rfl⟩ := Prod.mk.inj (Option.some.inj h)
    refine ⟨?_, rfl, rfl, rfl⟩
    by_contra haccepted
    obtain ⟨e, herror⟩ := tryBatched_of_not_accepted store.table .nativeOverwrite haccepted
    rw [htry] at herror
    cases herror

theorem CandleStore.Current.commit (h : store.Current) {w : CandleWrite}
    (hcommit : (candleStore tracked).commit store w = some (store', payloads)) :
    store'.Current := by
  cases w with
  | rollup event =>
    obtain ⟨rfl, -⟩ := Prod.mk.inj (Option.some.inj hcommit)
    intro k write hwrite
    obtain ⟨hrow, hnative⟩ := h k write hwrite
    have hkey : (stored write.2).key = k := by simpa using List.find?_some hwrite
    refine ⟨?_, hnative⟩
    subst hkey
    exact KeepsNative.of_rollup tracked store.table event.2 (stored write.2) hnative hrow
  | native batch notify =>
    obtain ⟨haccepted, htable, hwrites, -⟩ := candleStore_native hcommit
    intro k write hwrite
    rw [CandleStore.newestWrite, hwrites, List.find?_append, Option.or_eq_some_iff] at hwrite
    rcases hwrite with hnew | ⟨hnone, hold⟩
    · have hkey : (stored write.2).key = k := by simpa using List.find?_some hnew
      obtain ⟨c, hc, rfl⟩ := List.mem_map.mp (List.mem_of_find?_eq_some hnew)
      have hmem := List.mem_reverse.mp hc
      subst hkey
      rw [htable]
      exact ⟨lookup_tryBatched_native haccepted hmem, batch.native c hmem⟩
    · obtain ⟨hrow, hnative⟩ := h k write hold
      have hoff : ∀ c ∈ batch.candles, (stored c).key ≠ k := by
        intro c hc hkey
        have hmem := List.mem_map_of_mem (f := Prod.mk notify) (List.mem_reverse.mpr hc)
        simpa [hkey] using List.find?_eq_none.mp hnone (notify, c) hmem
      rw [htable, lookup_tryBatched_off hoff]
      exact ⟨hrow, hnative⟩

def CandleStore.notified (store : CandleStore) : List CoinCandle :=
  (store.writes.filter fun write => write.1 = .perEvent).map Prod.snd

theorem notified_commit {w : CandleWrite}
    (hcommit : (candleStore tracked).commit store w = some (store', payloads)) :
    store'.notified = payloads.reverse ++ store.notified := by
  cases w with
  | rollup event =>
    obtain ⟨rfl, rfl⟩ := Prod.mk.inj (Option.some.inj hcommit)
    rfl
  | native batch notify =>
    obtain ⟨-, -, hwrites, rfl⟩ := candleStore_native hcommit
    unfold CandleStore.notified
    rw [hwrites, List.filter_append, List.map_append]
    cases notify with
    | perEvent => simp [List.filter_map, Function.comp_def]
    | silent => simp [List.filter_map, Function.comp_def]

/-- The newest write of a key, if it was notified, is the newest notification of the key. -/
theorem newestOf_notified {k : CandleKey} {c : CoinCandle}
    (h : store.newestWrite k = some (.perEvent, c)) : newestOf k store.notified = some c := by
  obtain ⟨hkey, before, after, hwrites, hbefore⟩ := List.find?_eq_some_iff_append.mp h
  have hnone : newestOf k ((before.filter fun write => write.1 = .perEvent).map Prod.snd) =
      none := by
    rw [newestOf, List.find?_eq_none]
    intro x hx
    obtain ⟨write, hwrite, rfl⟩ := List.mem_map.mp hx
    simpa using hbefore write (List.mem_filter.mp hwrite).1
  rw [newestOf] at hnone
  rw [newestOf, CandleStore.notified, hwrites, List.filter_append, List.map_append,
    List.find?_append, hnone, Option.none_or, List.filter_cons_of_pos (by simp), List.map_cons]
  exact List.find?_cons_of_pos hkey

end Store

variable {ι : Type*} [DecidableEq ι] {tracked : String → Bool}
  {s : StreamSystem ι CandleStore CoinCandle}

theorem candle_stream_kept {as : List (StreamAction ι CandleWrite)}
    (hrun : exec (StreamSystem.step (candleStore tracked)) (.start (candleStore tracked)) as =
      some s) : s.store.Current ∧ s.store.notified = s.feed.reverse := by
  refine exec_invariant (I := fun u => u.store.Current ∧ u.store.notified = u.feed.reverse) ?_
    ⟨fun k write h => (by cases h), rfl⟩ hrun
  rintro u a v ⟨hcurrent, hnotified⟩ hstep
  cases a with
  | write w =>
    obtain ⟨⟨store, payloads⟩, hcommit, rfl⟩ := Option.map_eq_some_iff.mp hstep
    refine ⟨hcurrent.commit hcommit, ?_⟩
    rw [notified_commit hcommit, hnotified, List.reverse_append]
  | on r a =>
    obtain ⟨rep, -, rfl⟩ := Option.map_eq_some_iff.mp hstep
    exact ⟨hcurrent, hnotified⟩

/-- A client that was sent as many candles as were notified since it subscribed holds of every
key it was sent the row that is stored, unless that was last written silently. -/
theorem streamed_candles_stored {as : List (StreamAction ι CandleWrite)}
    (hrun : exec (StreamSystem.step (candleStore tracked)) (.start (candleStore tracked)) as =
      some s) (r : ι) (client : StreamClient CoinCandle)
    (hclient : client ∈ (s.replicas r).clients)
    (hall : client.delivered.length + client.positionBefore = s.feed.length) (k : CandleKey)
    (hsent : ∃ c ∈ client.delivered, (stored c).key = k) (c : CoinCandle)
    (hlive : s.store.newestWrite k = some (.perEvent, c)) :
    newestOf k client.delivered.reverse = some c ∧ s.store.table.lookup k = some (stored c) := by
  obtain ⟨hcurrent, hnotified⟩ := candle_stream_kept hrun
  refine ⟨?_, (hcurrent k _ hlive).1⟩
  obtain ⟨hheard, lost, hcarried, -⟩ := (streams_kept hrun r).clients client hclient
  have hlength : client.delivered.length = (s.feed.drop client.positionBefore).length := by
    rw [List.length_drop]
    omega
  have hdelivered := (hcarried.relayed hheard).1.eq_of_length hlength
  have hnewest := newestOf_notified hlive
  rw [hnotified, ← List.take_append_drop client.positionBefore s.feed, List.reverse_append,
    ← hdelivered, newestOf, List.find?_append, Option.or_eq_some_iff] at hnewest
  rcases hnewest with hfound | ⟨hnone, -⟩
  · exact hfound
  · obtain ⟨c', hc', hkey⟩ := hsent
    have hno := List.find?_eq_none.mp hnone c' (List.mem_reverse.mpr hc')
    simp [hkey] at hno

def dayClosing (ts : ℤ) (close : ℚ) : CoinCandle :=
  ⟨"bitcoin", "usd", "1d", ts, 5, 9, 4, close, none, "binance"⟩

theorem dayClosing_native (ts : ℤ) (close : ℚ) :
    ∀ c ∈ [dayClosing ts close], isRollup c = false := by
  intro c hc
  rw [List.mem_singleton.mp hc]
  change "rollup:".toList.isPrefixOf "binance".toList = false
  decide

abbrev openStore : NotifyingStore CandleStore CandleWrite CoinCandle := candleStore fun _ => true

def writeDay (ts : ℤ) (close : ℚ) (notify : CandleNotifyPolicy) : StreamAction ℕ CandleWrite :=
  .write (.native ⟨[dayClosing ts close], dayClosing_native ts close⟩ notify)

/-- The relay loses its session while the second of three candles is written. -/
def interruptedRun : List (StreamAction ℕ CandleWrite) :=
  [.on 1 .listen, .on 1 .subscribe, writeDay 0 6 .perEvent, .on 1 .relay, .on 1 (.forward 0 true),
    .on 1 .connectionLost, writeDay 86400000000000 7 .perEvent, .on 1 .listen,
    writeDay 172800000000000 8 .perEvent, .on 1 .relay, .on 1 (.forward 0 true)]

theorem streams_accounted_interrupted :
    ∃ s, exec (StreamSystem.step openStore) (.start openStore) interruptedRun = some s ∧
      s.feed.length = 3 ∧
      [dayClosing 0 6, dayClosing 172800000000000 8].Sublist s.feed := by
  have hreached : (exec (StreamSystem.step openStore) (.start openStore)
      interruptedRun).map (fun s => (s.feed.length, (s.replicas 1).clients)) =
      some (3, [⟨2, [dayClosing 0 6, dayClosing 172800000000000 8], 0, true, 0, 0, 0⟩]) := by
    decide +kernel
  obtain ⟨s, hrun, hs⟩ := Option.map_eq_some_iff.mp hreached
  obtain ⟨hfeed, hclients⟩ := Prod.mk.inj hs
  refine ⟨s, hrun, hfeed, ?_⟩
  exact (streams_accounted hrun 1 _ (by rw [hclients]; exact List.mem_singleton_self _)).1

/-- A day is refreshed twice, and an older one is backfilled in between. -/
def refreshedRun : List (StreamAction ℕ CandleWrite) :=
  [.on 1 .listen, .on 1 .subscribe, writeDay 0 6 .perEvent, .on 1 .relay, .on 1 (.forward 0 true),
    writeDay (-86400000000000) 3 .silent, writeDay 0 7 .perEvent, .on 1 .relay,
    .on 1 (.forward 0 true)]

theorem streamed_candles_stored_refreshed :
    ∃ s, exec (StreamSystem.step openStore) (.start openStore) refreshedRun = some s ∧
      s.store.table.lookup (dayClosing 0 7).key = some (stored (dayClosing 0 7)) := by
  have hreached : (exec (StreamSystem.step openStore) (.start openStore)
      refreshedRun).map (fun s => (s.feed.length, (s.replicas 1).clients,
        s.store.newestWrite (dayClosing 0 7).key)) =
      some (2, [⟨2, [dayClosing 0 6, dayClosing 0 7], 0, true, 0, 0, 0⟩],
        some (.perEvent, dayClosing 0 7)) := by
    decide +kernel
  obtain ⟨s, hrun, hs⟩ := Option.map_eq_some_iff.mp hreached
  obtain ⟨hfeed, hrest⟩ := Prod.mk.inj hs
  obtain ⟨hclients, hnewest⟩ := Prod.mk.inj hrest
  refine ⟨s, hrun, ?_⟩
  exact (streamed_candles_stored hrun 1 _ (by rw [hclients]; exact List.mem_singleton_self _)
    (by rw [hfeed]; rfl) _ ⟨dayClosing 0 7, by simp, by decide +kernel⟩ _ hnewest).2

end CryptoCollector.Api

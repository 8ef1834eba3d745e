import CryptoCollector.Api.KeysetLists
import CryptoCollector.Collectors.RollupFrame

/-!
# Pages of a rolled up series

The rollup writes the daily and weekly candles into the table that `list_candles` pages through,
so that its native path serves them. What a client reads there right after a run is what the
providers wrote and, for the other buckets, what the whole source emits.
-/

namespace CryptoCollector.Api
open Foundations Models Db Collectors DateTime

/-- The instant is within the bounds of the request. -/
def NativeRequest.InBounds (r : NativeRequest) (ts : ℤ) : Prop :=
  (∀ e ∈ r.end_, ts ≤ storeTimestamptz e) ∧ ∀ s ∈ r.start, storeTimestamptz s ≤ ts

theorem NativeRequest.mem_candles {r : NativeRequest} {c : CoinCandle} :
    c ∈ r.candles ↔ c ∈ r.series ∧ r.InBounds c.ts := by
  rw [candles, tsList, mem_newestFirst, List.mem_filter]
  apply and_congr_right
  intro _
  unfold InBounds
  cases r.end_ <;> cases r.start <;> simp

theorem NativeRequest.candles_descending (r : NativeRequest) :
    r.candles.Pairwise fun c d => d.ts < c.ts := by
  have hmicros : ∀ c ∈ r.series, Micros c.ts := fun c hc =>
    r.micros c (CandleTable.mem_series.mp hc).1
  have hsorted : Ascending (fun c => TsKey.stored ⟨c.ts⟩) r.candles :=
    newestFirst_ascending hmicros CandleTable.series_distinctTs _
  apply List.Pairwise.imp_of_mem _ hsorted
  intro c d hc hd hlt
  have hcs := hmicros c (mem_candles.mp hc).1
  have hds := hmicros d (mem_candles.mp hd).1
  simpa [TsKey.stored, storeTimestamptz_of_micros hcs, storeTimestamptz_of_micros hds] using hlt

/-- Right after a run a client that pages the target interval reads, newest first, the candles
that providers wrote and of every other bucket what the whole source emits. -/
theorem rolled_up_pages_exact (job : RollupJob) {t₀ t : CandleTable}
    {history : List RollupJob.Event} {now : ℤ} (hempty : job.rollupRows t₀ = [])
    (hsteps : StepsMeet job.step job.StepOk t₀ history)
    (hhistory : exec job.step t₀ history = some t) (hbegun : job.Begun now t)
    (hkept : job.rollupRows t = [] ∨ job.rollupRows (job.incrementalRecomputeTarget now t) ≠ [])
    (r : NativeRequest) (htable : r.db.candles = job.incrementalRecomputeTarget now t)
    (hcoin : r.coinId = job.coinId) (hcurrency : resolveCurrency r.vsCurrency = job.vsCurrency)
    (hinterval : r.interval = job.targetInterval) (codec : KeysetCodec TsKey) :
    ReadsInOrder AcceptedLimit (r.answer codec) r.candles ∧
      (r.candles.Pairwise fun c d => d.ts < c.ts) ∧
      ∀ c, c ∈ r.candles ↔ r.InBounds c.ts ∧ (c ∈ job.nativeRows t ∨
        c ∈ job.materializeFromSource now (job.sourceRows t) ∧
          ¬RollupJob.NativeHeld t c.key) := by
  refine ⟨(r.readsInOrder codec).1, r.candles_descending, ?_⟩
  intro c
  have hspares := SparesOthers.incrementalRecomputeTarget job now t
  have hinv : job.RollupInvariant t := .of_history hempty hsteps hhistory
  have hconverged := hinv.converged hbegun hkept c
  rw [hspares.mem_materialized, hspares.nativeHeld_iff] at hconverged
  rw [NativeRequest.mem_candles, and_comm, ← hconverged, ← hspares.mem_nativeRows,
    ← RollupJob.mem_targetSeries, NativeRequest.series, htable, hcoin, hcurrency, hinterval]

/-- The daily candles after day 0 came late. -/
def lateDays : NativeRequest where
  db := ⟨["bitcoin"], halfDayJob.incrementalRecomputeTarget (hoursInto2024 78)
    (halfDayTable lateHistory)⟩
  now := hoursInto2024 78
  coinId := "bitcoin"
  interval := "1d"
  vsCurrency := some "USD"
  start := none
  end_ := none
  target := .d1
  valid := by decide
  tracked := by decide
  native := by decide +kernel
  micros := by decide +kernel

theorem rolled_up_pages_exact_late_days :
    wholeDay 0 2 ∈ lateDays.candles ∧ ∃ pages, pages.flatMap Page.items = lateDays.candles ∧
      Follows (fun cursor limit page =>
        lateDays.answer (tsCodec juneCrates) cursor limit = .ok page) (fun _ => some 1) none
        pages := by
  have hrun : exec halfDayJob.step KeyedTable.empty lateHistory = some (halfDayTable lateHistory) :=
    rfl
  have hbegun : halfDayJob.Begun (hoursInto2024 78) (halfDayTable lateHistory) := by
    decide +kernel
  have htable : lateDays.db.candles =
      halfDayJob.incrementalRecomputeTarget (hoursInto2024 78) (halfDayTable lateHistory) := by
    simp only [lateDays]
  obtain ⟨hreads, -, hexact⟩ := rolled_up_pages_exact halfDayJob rfl (by decide +kernel) hrun
    hbegun (Or.inr (by decide +kernel)) lateDays htable rfl (by decide +kernel) rfl
    (tsCodec juneCrates)
  have haccepted : ∀ _ : ℕ, AcceptedLimit (some 1) := fun _ => rfl
  constructor
  · refine (hexact _).mpr ⟨⟨by simp [lateDays], by simp [lateDays]⟩, Or.inr ⟨?_, ?_⟩⟩
    · decide +kernel
    · rintro ⟨old, hold, -⟩
      have hfree : (halfDayTable lateHistory).lookup (wholeDay 0 2).key = none := by
        decide +kernel
      rw [hfree] at hold
      cases hold
  · obtain ⟨pages, hitems, hpages⟩ := hreads _ haccepted
    exact ⟨pages, hitems, (hpages _).mpr rfl⟩

end CryptoCollector.Api

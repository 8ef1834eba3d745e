import CryptoCollector.Collectors.Rollup
import CryptoCollector.Foundations.Runs

/-!
# Rollup convergence

Source candles arrive in any order between the runs of the rollup. A run reads
the source from the newest bucket on and before the oldest one; what lies between
them is as the source emits it as long as no write changes it there.
-/

namespace CryptoCollector.Collectors
open Models Foundations Db Api DateTime

namespace RollupJob

variable {job : RollupJob} {t t' : CandleTable} {now b : ℤ} {c : CoinCandle}

/-- What a bucket holds is native or what the source emits. -/
def Settled (job : RollupJob) (now : ℤ) (t : CandleTable) (b : ℤ) : Prop :=
  (∃ old, job.slot t b = some old ∧ isRollup old = false) ∨ job.slot t b = job.foldAt now t b

theorem settled_of_refold (hslot : job.slot t' b = job.refold now t b)
    (hfold : job.foldAt now t' b = job.foldAt now t b)
    (hnone : job.foldAt now t b = none → job.Settled now t b) : job.Settled now t' b := by
  unfold Settled
  rw [hslot, hfold]
  cases hemit : job.foldAt now t b with
  | none =>
    have hsettled := hnone hemit
    unfold Settled at hsettled
    rwa [refold, hemit] at *
  | some c =>
    simp only [refold, hemit]
    cases hold : job.slot t b with
    | none => exact Or.inr rfl
    | some old =>
      by_cases hrollup : isRollup old = true
      · simp [KeyedTable.overwrite, hrollup]
      · left
        exact ⟨old, by simp [KeyedTable.overwrite, hrollup], by simpa using hrollup⟩

theorem Refolds.settled {q : ℤ → Prop} (h : job.Refolds now q t t') (hb : job.Settled now t b) :
    job.Settled now t' b := by
  by_cases hq : q b
  · exact settled_of_refold (h.slot_on b hq) (h.foldAt b) fun _ => hb
  · unfold Settled
    rw [h.slot_off hq, h.foldAt]
    exact hb

theorem lookup_deletes (deletes : List ℤ) (t : CandleTable) (k : CandleKey) :
    (deletes.foldl job.deleteRollup t).lookup k =
      if ∃ ts ∈ deletes, k = ⟨job.coinId, job.vsCurrency, job.targetInterval, ts⟩ then
        (t.lookup k).filter fun c => !isRollup c
      else t.lookup k := by
  induction deletes generalizing t with
  | nil => simp
  | cons ts deletes ih =>
    have hone : (job.deleteRollup t ts).lookup k =
        if k = ⟨job.coinId, job.vsCurrency, job.targetInterval, ts⟩ then
          (t.lookup k).filter fun c => !isRollup c
        else t.lookup k := by
      rw [deleteRollup, KeyedTable.lookup_erase]
      cases hlookup : t.lookup k with
      | none => simp
      | some c =>
        have hkey := KeyedTable.key_eq_of_lookup hlookup
        by_cases hk : k = ⟨job.coinId, job.vsCurrency, job.targetInterval, ts⟩
        · simp [hkey, hk, Option.filter]
        · simp [hkey, hk, Option.filter]
    rw [List.foldl_cons, ih, hone]
    by_cases hk : k = ⟨job.coinId, job.vsCurrency, job.targetInterval, ts⟩
    · by_cases hrest : ∃ ts ∈ deletes, k = ⟨job.coinId, job.vsCurrency, job.targetInterval, ts⟩
      · rw [if_pos hrest, if_pos hk, if_pos ⟨ts, List.mem_cons_self, hk⟩]
        rw [Option.filter_filter]
        simp
      · rw [if_neg hrest, if_pos hk, if_pos ⟨ts, List.mem_cons_self, hk⟩]
    · simp [hk]

theorem wholeBuckets_from {first : ℤ} (hfirst : job.targetSecs ∣ first) :
    job.WholeBuckets (fun c => fromTimestamp first ≤ c.ts) fun b => first ≤ b := by
  intro row
  rw [decide_eq_true_eq, ← boundary_le_bucketEpoch_iff job.targetSecs_pos hfirst]

theorem slot_key (h : job.slot t b = some c) : c.key = job.targetKey b :=
  KeyedTable.key_eq_of_lookup h

theorem slot_ts (h : job.slot t b = some c) : c.ts = fromTimestamp b :=
  congrArg CandleKey.ts (slot_key h)

/-- What the forward pass emits. -/
def emittedFrom (job : RollupJob) (now start : ℤ) (t : CandleTable) : List CoinCandle :=
  job.materializeFromSource now ((job.sourceRows t).filter fun c => start ≤ c.ts)

/-- The times of the rows the forward pass deletes. -/
def staleFrom (job : RollupJob) (now start : ℤ) (t : CandleTable) : List ℤ :=
  (reconcileWindow ((job.rollupRows t).filter fun c => start ≤ c.ts)
    (job.emittedFrom now start t)).2

theorem recomputeForward_eq (job : RollupJob) (now start : ℤ) (t : CandleTable) :
    job.recomputeForward now start t = (job.staleFrom now start t).foldl job.deleteRollup
      (batchedUpsertCandles t (job.emittedFrom now start t)) := by
  change (job.staleFrom now start t).foldl job.deleteRollup
    (if job.emittedFrom now start t = [] then t
      else batchedUpsertCandles t (job.emittedFrom now start t)) = _
  split_ifs with hempty
  · rw [hempty]
    rfl
  · rfl

section Forward

variable {first : ℤ}

theorem mem_sourceFrom {start : ℤ} (row : CoinCandle) :
    row ∈ (job.sourceRows t).filter (fun c => start ≤ c.ts) ↔
      row ∈ job.sourceRows t ∧ decide (start ≤ row.ts) = true :=
  List.mem_filter

theorem sourceFrom_distinctTs {start : ℤ} :
    DistinctTs ((job.sourceRows t).filter fun c => start ≤ c.ts) :=
  (job.sourceRows_distinctTs t).sublist List.filter_sublist

theorem refolds_emittedFrom (now : ℤ) (t : CandleTable) (hfirst : job.targetSecs ∣ first) :
    job.Refolds now (fun b => first ≤ b) t
      (batchedUpsertCandles t (job.emittedFrom now (fromTimestamp first) t)) :=
  refolds_batch (wholeBuckets_from hfirst) mem_sourceFrom sourceFrom_distinctTs

theorem mem_emittedFrom (hfirst : job.targetSecs ∣ first) :
    c ∈ job.emittedFrom now (fromTimestamp first) t ↔
      ∃ b, first ≤ b ∧ job.foldAt now t b = some c :=
  mem_materializeFromSource (wholeBuckets_from hfirst) mem_sourceFrom sourceFrom_distinctTs

theorem foldAt_ts (h : job.foldAt now t b = some c) : c.ts = fromTimestamp b :=
  congrArg CandleKey.ts (foldAt_spec h).1

theorem mem_emittedFrom_ts (hfirst : job.targetSecs ∣ first) (hb : first ≤ b) :
    b ∈ (job.emittedFrom now (fromTimestamp first) t).map (fun c => timestamp c.ts) ↔
      job.foldAt now t b ≠ none := by
  rw [List.mem_map]
  constructor
  · rintro ⟨c, hc, hcb⟩
    obtain ⟨b', -, hb'⟩ := (mem_emittedFrom hfirst).mp hc
    rw [foldAt_ts hb', timestamp_fromTimestamp] at hcb
    rw [← hcb, hb']
    exact Option.some_ne_none c
  · intro hsome
    obtain ⟨c, hc⟩ := Option.ne_none_iff_exists'.mp hsome
    refine ⟨c, (mem_emittedFrom hfirst).mpr ⟨b, hb, hc⟩, ?_⟩
    rw [foldAt_ts hc, timestamp_fromTimestamp]

theorem mem_staleFrom {start ts : ℤ} :
    ts ∈ job.staleFrom now start t ↔ ∃ c ∈ job.rollupRows t, c.ts = ts ∧ start ≤ ts ∧
      timestamp ts ∉ (job.emittedFrom now start t).map fun c => timestamp c.ts := by
  simp only [staleFrom, reconcileWindow, List.mem_map, List.mem_filter, decide_eq_true_eq]
  constructor
  · rintro ⟨c, ⟨⟨hc, hlow⟩, hstale⟩, rfl⟩
    exact ⟨c, hc, rfl, hlow, hstale⟩
  · rintro ⟨c, hc, rfl, hlow, hstale⟩
    exact ⟨c, ⟨⟨hc, hlow⟩, hstale⟩, rfl⟩

theorem recomputeForward_lookup_off (hfirst : job.targetSecs ∣ first) {k : CandleKey}
    (hk : ∀ ts, fromTimestamp first ≤ ts →
      k ≠ ⟨job.coinId, job.vsCurrency, job.targetInterval, ts⟩) :
    (job.recomputeForward now (fromTimestamp first) t).lookup k = t.lookup k := by
  rw [recomputeForward_eq, lookup_deletes, if_neg, (refolds_emittedFrom now t hfirst).lookup_off]
  · intro b hb
    exact hk _ (fromTimestamp_le.mpr hb)
  · rintro ⟨ts, hts, hkey⟩
    obtain ⟨-, -, -, hlow, -⟩ := mem_staleFrom.mp hts
    exact hk ts hlow hkey

theorem recomputeForward_sourceRows (now : ℤ) (t : CandleTable)
    (hfirst : job.targetSecs ∣ first) (c : CoinCandle) :
    c ∈ job.sourceRows (job.recomputeForward now (fromTimestamp first) t) ↔
      c ∈ job.sourceRows t := by
  rw [mem_sourceRows, mem_sourceRows]
  apply and_congr_left
  rintro ⟨-, -, hinterval⟩
  rw [recomputeForward_lookup_off hfirst]
  intro ts _ hkey
  exact job.source_ne_target (hinterval.symm.trans (congrArg CandleKey.interval hkey))

theorem recomputeForward_slot (now : ℤ) (t : CandleTable) (hfirst : job.targetSecs ∣ first)
    (hb : first ≤ b) :
    job.slot (job.recomputeForward now (fromTimestamp first) t) b =
      if fromTimestamp b ∈ job.staleFrom now (fromTimestamp first) t then
        (job.refold now t b).filter fun c => !isRollup c
      else job.refold now t b := by
  rw [slot, recomputeForward_eq, lookup_deletes, ← slot,
    (refolds_emittedFrom now t hfirst).slot_on b hb]
  congr 1
  simp [targetKey]

/-- The forward pass settles every bucket from its start on. -/
theorem recomputeForward_settled (hfirst : job.targetSecs ∣ first) (hb : first ≤ b) :
    job.Settled now (job.recomputeForward now (fromTimestamp first) t) b := by
  have hfold : job.foldAt now (job.recomputeForward now (fromTimestamp first) t) b =
      job.foldAt now t b :=
    foldAt_congr (recomputeForward_sourceRows now t hfirst)
  have hslot := recomputeForward_slot now t hfirst hb
  by_cases hnone : job.foldAt now t b = none
  · unfold Settled
    rw [hslot, hfold, hnone, refold, hnone]
    cases hold : job.slot t b with
    | none => simp
    | some old =>
      by_cases hrollup : isRollup old = true
      · have hrow := (mem_rollupRows_iff_slot (slot_ts hold)).mpr ⟨hold, hrollup⟩
        have hstale : fromTimestamp b ∈ job.staleFrom now (fromTimestamp first) t := by
          apply mem_staleFrom.mpr
          refine ⟨old, hrow, slot_ts hold, fromTimestamp_le.mpr hb, ?_⟩
          rw [timestamp_fromTimestamp, mem_emittedFrom_ts hfirst hb]
          exact not_not.mpr hnone
        simp [hstale, Option.filter, hrollup]
      · simp [Option.filter, hrollup]
  · have hkeep : fromTimestamp b ∉ job.staleFrom now (fromTimestamp first) t := by
      intro hstale
      obtain ⟨-, -, -, -, hgone⟩ := mem_staleFrom.mp hstale
      rw [timestamp_fromTimestamp, mem_emittedFrom_ts hfirst hb] at hgone
      exact hgone hnone
    rw [if_neg hkeep] at hslot
    exact settled_of_refold hslot hfold fun h => absurd h hnone

end Forward

/-- The bucket lies from the oldest materialized one up to the newest. -/
def Interior (job : RollupJob) (t : CandleTable) (b : ℤ) : Prop :=
  (∃ c ∈ job.rollupRows t, c.ts ≤ fromTimestamp b) ∧
    ∃ c ∈ job.rollupRows t, fromTimestamp b < c.ts

instance (job : RollupJob) (t : CandleTable) (b : ℤ) : Decidable (job.Interior t b) :=
  inferInstanceAs (Decidable ((∃ c ∈ job.rollupRows t, _) ∧ ∃ c ∈ job.rollupRows t, _))

/-- What the source emits for the bucket once it is closed. -/
def closedFold (job : RollupJob) (t : CandleTable) (b : ℤ) : Option CoinCandle :=
  job.foldAt (fromTimestamp (b + job.targetSecs)) t b

/-- Every materialized bucket has a source row. -/
def Grounded (job : RollupJob) (t : CandleTable) : Prop :=
  ∀ c ∈ job.rollupRows t, ∃ row ∈ job.sourceRows t,
    c.ts = fromTimestamp (bucketEpoch job.targetSecs row)

/-- Between the oldest and the newest materialized bucket the table holds what the
source emits, or native rows. -/
structure RollupInvariant (job : RollupJob) (t : CandleTable) : Prop where
  grounded : job.Grounded t
  interior : ∀ b, job.targetSecs ∣ b → job.Interior t b →
    (∃ old, job.slot t b = some old ∧ isRollup old = false) ∨ job.slot t b = job.closedFold t b

theorem RollupInvariant.of_no_rows (h : job.rollupRows t = []) : job.RollupInvariant t where
  grounded := by simp [Grounded, h]
  interior b _ hb := by simp [Interior, h] at hb

theorem foldAt_of_closed (hclosed : b + job.targetSecs ≤ timestamp now) :
    job.foldAt now t b = job.closedFold t b := by
  have hdrop : ∀ g ∈ bucketGroup job.targetSecs b (job.sourceRows t),
      isDropped job.targetSecs job.sourceSecs now g =
        isDropped job.targetSecs job.sourceSecs (fromTimestamp (b + job.targetSecs)) g := by
    intro g hg
    obtain ⟨hkey, -⟩ := bucketGroup_eq_some_iff.mp hg
    simp [isDropped, isClosed, hkey, hclosed]
  rw [closedFold, foldAt, foldAt, bucketCandle, bucketCandle]
  congr 2
  cases hgroup : bucketGroup job.targetSecs b (job.sourceRows t) with
  | none => rfl
  | some g =>
    have hg := hdrop g hgroup
    simp [Option.filter, hg]

theorem Grounded.begun (h : job.Grounded t) (hbegun : job.Begun now t)
    (hc : c ∈ job.rollupRows t) :
    ∃ e, job.targetSecs ∣ e ∧ c.ts = fromTimestamp e ∧ e ≤ timestamp now := by
  obtain ⟨row, hrow, hts⟩ := h c hc
  exact ⟨_, dvd_bucketEpoch _ row, hts, hbegun row hrow⟩

/-- A bucket before a materialized one is closed at the run's clock. -/
theorem Grounded.closed (h : job.Grounded t) (hbegun : job.Begun now t) (hb : job.targetSecs ∣ b)
    (hc : c ∈ job.rollupRows t) (hlt : fromTimestamp b < c.ts) :
    b + job.targetSecs ≤ timestamp now := by
  obtain ⟨e, he, hts, hnow⟩ := h.begun hbegun hc
  rw [hts, fromTimestamp_lt] at hlt
  exact (boundary_add_le hb he hlt).trans hnow

theorem RollupInvariant.settled (h : job.RollupInvariant t) (hbegun : job.Begun now t)
    (hb : job.targetSecs ∣ b) (hinterior : job.Interior t b) : job.Settled now t b := by
  obtain ⟨c, hc, hlt⟩ := hinterior.2
  unfold Settled
  rw [foldAt_of_closed (h.grounded.closed hbegun hb hc hlt)]
  exact h.interior b hb hinterior

theorem RollupInvariant.of_settled (hgrounded : job.Grounded t) (hbegun : job.Begun now t)
    (hsettled : ∀ b, job.targetSecs ∣ b → job.Settled now t b) : job.RollupInvariant t where
  grounded := hgrounded
  interior b hb hinterior := by
    obtain ⟨c, hc, hlt⟩ := hinterior.2
    rw [← foldAt_of_closed (hgrounded.closed hbegun hb hc hlt)]
    exact hsettled b hb

theorem Grounded.of_rows (h : job.Grounded t)
    (hsource : ∀ row, row ∈ job.sourceRows t → row ∈ job.sourceRows t')
    (hrows : ∀ c ∈ job.rollupRows t', c ∈ job.rollupRows t) : job.Grounded t' := by
  intro c hc
  obtain ⟨row, hrow, hts⟩ := h c (hrows c hc)
  exact ⟨row, hsource row hrow, hts⟩

theorem Refolds.grounded {q : ℤ → Prop} (h : job.Refolds now q t t') (hgrounded : job.Grounded t) :
    job.Grounded t' := by
  intro c hc
  by_cases hold : c ∈ job.rollupRows t
  · obtain ⟨row, hrow, hts⟩ := hgrounded c hold
    exact ⟨row, (h.sourceRows row).mpr hrow, hts⟩
  · obtain ⟨hlookup, hseries, hrollup⟩ := mem_rollupRows.mp hc
    have hon : ∃ b, q b ∧ c.key = job.targetKey b := by
      by_contra hoff
      push Not at hoff
      rw [h.lookup_off _ hoff] at hlookup
      exact hold (mem_rollupRows.mpr ⟨hlookup, hseries, hrollup⟩)
    obtain ⟨b, hq, hkey⟩ := hon
    rw [hkey] at hlookup
    have hslot : job.refold now t b = some c := (h.slot_on b hq).symm.trans hlookup
    have hts : c.ts = fromTimestamp b := congrArg CandleKey.ts hkey
    have hnot : job.slot t b ≠ some c :=
      fun hslot' => hold ((mem_rollupRows_iff_slot hts).mpr ⟨hslot', hrollup⟩)
    have hemits : job.foldAt now t b ≠ none := by
      intro hnone
      rw [refold, hnone] at hslot
      exact hnot hslot
    obtain ⟨row, hrow, hrowb⟩ := exists_sourceRow_of_foldAt hemits
    exact ⟨row, (h.sourceRows row).mpr hrow, by rw [hrowb, hts]⟩

theorem min?_ts_le {rows : List CoinCandle} {first : ℤ}
    (hmin : (rows.map CoinCandle.ts).min? = some first) (hc : c ∈ rows) : first ≤ c.ts :=
  (List.min?_eq_some_iff.mp hmin).2 _ (List.mem_map_of_mem hc)

theorem settled_of_none_before (hbefore : ¬∃ c ∈ job.rollupRows t, c.ts ≤ fromTimestamp b)
    (hnone : job.foldAt now t b = none) : job.Settled now t b := by
  unfold Settled
  rw [hnone]
  cases hold : job.slot t b with
  | none => exact Or.inr rfl
  | some old =>
    left
    refine ⟨old, rfl, ?_⟩
    by_contra hrollup
    have hrow := (mem_rollupRows_iff_slot (slot_ts hold)).mpr ⟨hold, by simpa using hrollup⟩
    exact hbefore ⟨old, hrow, (slot_ts hold).le⟩

/-- When the source does not start before the oldest materialized bucket, it has
no bucket before it. -/
theorem foldAt_none_of_no_repair {sourceMin earliest : ℤ}
    (hmin : ((job.sourceRows t).map CoinCandle.ts).min? = some sourceMin)
    (hrepair : ¬bucketStart sourceMin job.targetSecs < earliest)
    (hb : fromTimestamp b < earliest) : job.foldAt now t b = none := by
  by_contra hsome
  obtain ⟨row, hrow, rfl⟩ := exists_sourceRow_of_foldAt hsome
  rw [fromTimestamp_bucketEpoch] at hb
  have hstart := bucketStart_mono job.targetSecs_pos (min?_ts_le hmin hrow)
  omega

theorem foldAt_none_of_no_source
    (hmin : ((job.sourceRows t).map CoinCandle.ts).min? = none) : job.foldAt now t b = none := by
  by_contra hsome
  obtain ⟨row, hrow, -⟩ := exists_sourceRow_of_foldAt hsome
  rw [List.min?_eq_none_iff, List.map_eq_nil_iff] at hmin
  rw [hmin] at hrow
  cases hrow

theorem repairWalk_settled {sourceMin ceiling q : ℤ}
    (hmin : ((job.sourceRows t).map CoinCandle.ts).min? = some sourceMin)
    (hwalk : job.Refolds now (fun b => timestamp (bucketStart sourceMin weekSecs) ≤ b ∧ b < q) t t')
    (hpast : timestamp ceiling < q)
    (hbefore : (¬∃ c ∈ job.rollupRows t, c.ts ≤ fromTimestamp b) → fromTimestamp b < ceiling)
    (hsettled : (∃ c ∈ job.rollupRows t, c.ts ≤ fromTimestamp b) → job.Settled now t b) :
    job.Settled now t' b := by
  by_cases hrow : ∃ c ∈ job.rollupRows t, c.ts ≤ fromTimestamp b
  · exact hwalk.settled (hsettled hrow)
  by_cases hnone : job.foldAt now t b = none
  · exact hwalk.settled (settled_of_none_before hrow hnone)
  obtain ⟨row, hsource, hbucket⟩ := exists_sourceRow_of_foldAt hnone
  have hlow := week_le_bucketEpoch hmin hsource
  have hhigh := timestamp_mono (hbefore hrow).le
  rw [timestamp_fromTimestamp] at hhigh
  apply settled_of_refold (hwalk.slot_on b ⟨hbucket ▸ hlow, by omega⟩) (hwalk.foldAt b)
  intro h
  exact absurd h hnone

theorem repairHistory_settled (hrows : job.rollupRows t ≠ [])
    (hsettled : ∀ b, job.targetSecs ∣ b → (∃ c ∈ job.rollupRows t, c.ts ≤ fromTimestamp b) →
      job.Settled now t b) :
    (∃ q, job.Refolds now q t (job.repairHistory now t)) ∧
      ∀ b, job.targetSecs ∣ b → job.Settled now (job.repairHistory now t) b := by
  have hsame : ∃ q, job.Refolds now q t t :=
    ⟨fun _ => False, refolds_of_empty fun b hb => absurd hb id⟩
  obtain ⟨earliest, hearliest⟩ : ∃ earliest,
      ((job.rollupRows t).map CoinCandle.ts).min? = some earliest := by
    apply Option.ne_none_iff_exists'.mp
    rw [Ne, List.min?_eq_none_iff, List.map_eq_nil_iff]
    exact hrows
  have hbefore : ∀ b, (¬∃ c ∈ job.rollupRows t, c.ts ≤ fromTimestamp b) →
      fromTimestamp b < earliest := by
    intro b hnone
    obtain ⟨oldest, holdest, hts⟩ := List.mem_map.mp (List.min?_eq_some_iff.mp hearliest).1
    by_contra hle
    exact hnone ⟨oldest, holdest, hts.trans_le (not_lt.mp hle)⟩
  have hidle : (∀ b, fromTimestamp b < earliest → job.foldAt now t b = none) →
      ∀ b, job.targetSecs ∣ b → job.Settled now t b := by
    intro hnone b hb
    by_cases hrow : ∃ c ∈ job.rollupRows t, c.ts ≤ fromTimestamp b
    · exact hsettled b hb hrow
    · exact settled_of_none_before hrow (hnone b (hbefore b hrow))
  unfold repairHistory
  rw [hearliest]
  cases hmin : ((job.sourceRows t).map CoinCandle.ts).min? with
  | none => exact ⟨hsame, hidle fun b _ => foldAt_none_of_no_source hmin⟩
  | some sourceMin =>
    simp only [backwardRepairWindow]
    by_cases hrepair : bucketStart sourceMin job.targetSecs < earliest
    · simp only [if_pos hrepair]
      have hwalk := job.refolds_windowWalk now sourceMin earliest t
      have hpast := lt_walkStop (timestamp (bucketStart sourceMin weekSecs)) (timestamp earliest)
      constructor
      · exact ⟨_, hwalk⟩
      · intro b hb
        exact repairWalk_settled hmin hwalk hpast (hbefore b) (hsettled b hb)
    · simp only [if_neg hrepair]
      exact ⟨hsame, hidle fun b hb => foldAt_none_of_no_repair hmin hrepair hb⟩

theorem backfillTarget_settled (hbegun : job.Begun now t) (hrows : job.rollupRows t = []) :
    ∀ b, job.Settled now (job.backfillTarget now t) b := by
  have hrefolds := refolds_backfillTarget hbegun
  intro b
  apply settled_of_refold (hrefolds.slot_on b trivial) (hrefolds.foldAt b)
  apply settled_of_none_before
  simp [hrows]

theorem recomputeForward_grounded (now : ℤ) {first : ℤ} (hfirst : job.targetSecs ∣ first)
    (h : job.Grounded t) :
    job.Grounded (job.recomputeForward now (fromTimestamp first) t) := by
  have hbatch := (refolds_emittedFrom now t hfirst).grounded h
  apply hbatch.of_rows
  · intro row hrow
    rw [recomputeForward_sourceRows now t hfirst]
    exact ((refolds_emittedFrom now t hfirst).sourceRows row).mp hrow
  · intro c hc
    rw [mem_rollupRows, recomputeForward_eq, lookup_deletes] at hc
    obtain ⟨hlookup, hseries⟩ := hc
    apply mem_rollupRows.mpr ⟨_, hseries⟩
    split_ifs at hlookup with hdeleted
    · exact (Option.filter_eq_some_iff.mp hlookup).1
    · exact hlookup

/-- After the forward pass from the newest materialized bucket every bucket from
the oldest one on is settled. -/
theorem recomputeForward_settled_after (hinv : job.RollupInvariant t) (hbegun : job.Begun now t)
    {newest : ℤ} (hfirst : job.targetSecs ∣ newest)
    (hmax : ((job.rollupRows t).map CoinCandle.ts).max? = some (fromTimestamp newest))
    (hb : job.targetSecs ∣ b)
    (hrow : ∃ c ∈ job.rollupRows (job.recomputeForward now (fromTimestamp newest) t),
      c.ts ≤ fromTimestamp b) :
    job.Settled now (job.recomputeForward now (fromTimestamp newest) t) b := by
  by_cases hle : newest ≤ b
  · exact recomputeForward_settled hfirst hle
  have hoff : ∀ c : CoinCandle, c.ts < fromTimestamp newest →
      (job.recomputeForward now (fromTimestamp newest) t).lookup c.key = t.lookup c.key := by
    intro c hc
    apply recomputeForward_lookup_off hfirst
    intro ts hts hkey
    have hcts : c.ts = ts := congrArg CandleKey.ts hkey
    omega
  have hbefore : fromTimestamp b < fromTimestamp newest := fromTimestamp_lt.mpr (not_le.mp hle)
  have hslot : job.slot (job.recomputeForward now (fromTimestamp newest) t) b = job.slot t b := by
    apply recomputeForward_lookup_off hfirst
    intro ts hts hkey
    have hbts : fromTimestamp b = ts := congrArg CandleKey.ts hkey
    omega
  have hinterior : job.Interior t b := by
    obtain ⟨c, hc, hcb⟩ := hrow
    obtain ⟨last, hlast, hlastTs⟩ := List.mem_map.mp (List.max?_eq_some_iff.mp hmax).1
    rw [mem_rollupRows, hoff c (by omega)] at hc
    exact ⟨⟨c, mem_rollupRows.mpr hc, hcb⟩, ⟨last, hlast, by omega⟩⟩
  have hsettled := hinv.settled hbegun hb hinterior
  unfold Settled at hsettled ⊢
  rw [hslot, foldAt_congr (recomputeForward_sourceRows now t hfirst)]
  exact hsettled

theorem Begun.of_sourceRows (h : job.Begun now t)
    (hsource : ∀ c, c ∈ job.sourceRows t' ↔ c ∈ job.sourceRows t) : job.Begun now t' :=
  fun row hrow => h row ((hsource row).mp hrow)

theorem repairHistory_of_no_rows (h : job.rollupRows t = []) : job.repairHistory now t = t := by
  unfold repairHistory
  rw [h]
  cases ((job.sourceRows t).map CoinCandle.ts).min? <;> rfl

/-- A run keeps the invariant, and settles every bucket when it starts with no
materialized row or leaves one. -/
theorem incrementalRecomputeTarget_spec (hinv : job.RollupInvariant t)
    (hbegun : job.Begun now t) :
    job.RollupInvariant (job.incrementalRecomputeTarget now t) ∧
      (job.rollupRows t = [] ∨ job.rollupRows (job.incrementalRecomputeTarget now t) ≠ [] →
        ∀ b, job.targetSecs ∣ b → job.Settled now (job.incrementalRecomputeTarget now t) b) := by
  unfold incrementalRecomputeTarget
  cases hmax : ((job.rollupRows t).map CoinCandle.ts).max? with
  | none =>
    rw [List.max?_eq_none_iff, List.map_eq_nil_iff] at hmax
    have hrefolds := refolds_backfillTarget hbegun
    have hsettled := backfillTarget_settled hbegun hmax
    refine ⟨?_, fun _ b _ => hsettled b⟩
    exact RollupInvariant.of_settled (hrefolds.grounded hinv.grounded)
      (hbegun.of_sourceRows hrefolds.sourceRows) fun b _ => hsettled b
  | some start =>
    obtain ⟨last, hlast, hlastTs⟩ := List.mem_map.mp (List.max?_eq_some_iff.mp hmax).1
    obtain ⟨row, -, hrow⟩ := hinv.grounded last hlast
    obtain ⟨newest, hdvd, rfl⟩ : ∃ newest, job.targetSecs ∣ newest ∧ start = fromTimestamp newest :=
      ⟨_, dvd_bucketEpoch _ row, hlastTs.symm.trans hrow⟩
    have hforward := recomputeForward_sourceRows now t hdvd
    by_cases hrows : job.rollupRows (job.recomputeForward now (fromTimestamp newest) t) = []
    · simp only [repairHistory_of_no_rows hrows]
      refine ⟨RollupInvariant.of_no_rows hrows, ?_⟩
      rintro (hnone | hkept)
      · rw [hnone] at hlast
        cases hlast
      · exact absurd hrows hkept
    · obtain ⟨⟨q, hrefolds⟩, hsettled⟩ := repairHistory_settled hrows
        fun b hb => recomputeForward_settled_after hinv hbegun hdvd hmax hb
      refine ⟨?_, fun _ => hsettled⟩
      have hgrounded := recomputeForward_grounded now hdvd hinv.grounded
      exact RollupInvariant.of_settled (hrefolds.grounded hgrounded)
        ((hbegun.of_sourceRows hforward).of_sourceRows hrefolds.sourceRows) hsettled

/-- A step of the history: a candle is written by a provider, or the rollup runs. -/
inductive Event where
  | write (candle : CoinCandle)
  | run (now : ℤ)
  deriving DecidableEq, Repr

def step (job : RollupJob) (t : CandleTable) : Event → Option CandleTable
  | .write candle => some (batchedUpsertCoinCandles t [candle] .nativeOverwrite)
  | .run now => some (job.incrementalRecomputeTarget now t)

/-- What is asked of a step. A write is not of a rollup row, and what it changes
between the oldest and the newest materialized bucket is nothing the closed
bucket would emit; no source bucket begins after a run's clock. -/
def StepOk (job : RollupJob) (t : CandleTable) : Event → Prop
  | .write candle =>
    (candle.coinId = job.coinId ∧ candle.vsCurrency = job.vsCurrency ∧
      candle.interval = job.targetInterval → isRollup candle = false) ∧
    (candle.coinId = job.coinId ∧ candle.vsCurrency = job.vsCurrency ∧
      candle.interval = job.sourceInterval →
        job.Interior t (bucketEpoch job.targetSecs (stored candle)) →
          job.closedFold (batchedUpsertCoinCandles t [candle] .nativeOverwrite)
              (bucketEpoch job.targetSecs (stored candle)) =
            job.closedFold t (bucketEpoch job.targetSecs (stored candle)))
  | .run now => job.Begun now t

instance (job : RollupJob) (t : CandleTable) (e : Event) : Decidable (job.StepOk t e) :=
  match e with
  | .write _ => inferInstanceAs (Decidable ((_ → _) ∧ (_ → _ → _)))
  | .run now => inferInstanceAs (Decidable (job.Begun now t))

section Write

variable {candle : CoinCandle}

theorem lookup_write (t : CandleTable) (candle : CoinCandle) (k : CandleKey) :
    (batchedUpsertCoinCandles t [candle] .nativeOverwrite).lookup k =
      if k = (stored candle).key then some (stored candle) else t.lookup k := by
  have hone : batchedUpsertCoinCandles t [candle] .nativeOverwrite =
      t.upsert CandleConflictPolicy.nativeOverwrite.givesWay (stored candle) := rfl
  rw [hone, KeyedTable.lookup_upsert]
  split_ifs
  · cases t.lookup k <;> rfl
  · rfl

/-- A write changes the source of its own bucket only. -/
theorem closedFold_write (hb : ¬(candle.coinId = job.coinId ∧ candle.vsCurrency = job.vsCurrency ∧
      candle.interval = job.sourceInterval ∧ bucketEpoch job.targetSecs (stored candle) = b)) :
    job.closedFold (batchedUpsertCoinCandles t [candle] .nativeOverwrite) b =
      job.closedFold t b := by
  have hrows : bucketRows job.targetSecs b
      (job.sourceRows (batchedUpsertCoinCandles t [candle] .nativeOverwrite)) =
        bucketRows job.targetSecs b (job.sourceRows t) := by
    apply bucketRows_congr (job.sourceRows_distinctTs _) (job.sourceRows_distinctTs t)
    intro row hrow
    rw [mem_sourceRows, mem_sourceRows, lookup_write]
    apply and_congr_left
    rintro ⟨hcoin, hcurrency, hinterval⟩
    rw [if_neg]
    intro hkey
    simp only [CoinCandle.key, stored, CandleKey.mk.injEq] at hkey
    apply hb
    refine ⟨hkey.1 ▸ hcoin, hkey.2.1 ▸ hcurrency, hkey.2.2.1 ▸ hinterval, ?_⟩
    rw [← hrow, bucketEpoch, bucketEpoch, hkey.2.2.2]
    rfl
  rw [closedFold, closedFold, foldAt, foldAt, bucketCandle_congr hrows]

theorem mem_rollupRows_of_write (hnative : candle.coinId = job.coinId ∧
      candle.vsCurrency = job.vsCurrency ∧ candle.interval = job.targetInterval →
        isRollup candle = false)
    (hc : c ∈ job.rollupRows (batchedUpsertCoinCandles t [candle] .nativeOverwrite)) :
    c ∈ job.rollupRows t := by
  rw [mem_rollupRows, lookup_write] at hc
  obtain ⟨hlookup, hseries, hrollup⟩ := hc
  split_ifs at hlookup with hkey
  · cases hlookup
    have hnot : isRollup candle = false := hnative hseries
    have hyes : isRollup candle = true := hrollup
    rw [hnot] at hyes
    cases hyes
  · exact mem_rollupRows.mpr ⟨hlookup, hseries, hrollup⟩

theorem write_invariant (hinv : job.RollupInvariant t) (hok : job.StepOk t (.write candle)) :
    job.RollupInvariant (batchedUpsertCoinCandles t [candle] .nativeOverwrite) := by
  obtain ⟨hnative, hinside⟩ := hok
  have hrows : ∀ c ∈ job.rollupRows (batchedUpsertCoinCandles t [candle] .nativeOverwrite),
      c ∈ job.rollupRows t := fun _ => mem_rollupRows_of_write hnative
  constructor
  · intro c hc
    obtain ⟨row, hrow, hts⟩ := hinv.grounded c (hrows c hc)
    rw [mem_sourceRows] at hrow
    obtain ⟨hlookup, hseries⟩ := hrow
    by_cases hkey : row.key = (stored candle).key
    · refine ⟨stored candle, ?_, ?_⟩
      · rw [mem_sourceRows, lookup_write, if_pos rfl]
        simp only [CoinCandle.key, CandleKey.mk.injEq] at hkey
        exact ⟨rfl, hkey.1 ▸ hseries.1, hkey.2.1 ▸ hseries.2.1, hkey.2.2.1 ▸ hseries.2.2⟩
      · have hrowTs : row.ts = (stored candle).ts := congrArg CandleKey.ts hkey
        rw [hts, bucketEpoch, bucketEpoch, hrowTs]
    · refine ⟨row, ?_, hts⟩
      rw [mem_sourceRows, lookup_write, if_neg hkey]
      exact ⟨hlookup, hseries⟩
  · intro b hb hinterior
    have hbefore : job.Interior t b := by
      obtain ⟨⟨c, hc, hle⟩, d, hd, hlt⟩ := hinterior
      exact ⟨⟨c, hrows c hc, hle⟩, d, hrows d hd, hlt⟩
    rw [slot, lookup_write]
    split_ifs with hkey
    · left
      simp only [targetKey, CoinCandle.key, stored, CandleKey.mk.injEq] at hkey
      exact ⟨_, rfl, hnative ⟨hkey.1.symm, hkey.2.1.symm, hkey.2.2.1.symm⟩⟩
    · rcases hinv.interior b hb hbefore with hheld | hfold
      · exact Or.inl hheld
      · right
        rw [← slot, hfold]
        by_cases hsame : candle.coinId = job.coinId ∧ candle.vsCurrency = job.vsCurrency ∧
            candle.interval = job.sourceInterval ∧ bucketEpoch job.targetSecs (stored candle) = b
        · obtain ⟨hcoin, hcurrency, hinterval, rfl⟩ := hsame
          exact (hinside ⟨hcoin, hcurrency, hinterval⟩ hbefore).symm
        · exact (closedFold_write hsame).symm

end Write

/-- A step that meets the condition keeps the invariant. -/
theorem step_invariant {e : Event} (hinv : job.RollupInvariant t) (hok : job.StepOk t e)
    (hstep : job.step t e = some t') : job.RollupInvariant t' := by
  cases e with
  | write candle =>
    cases hstep
    exact write_invariant hinv hok
  | run now =>
    cases hstep
    exact (incrementalRecomputeTarget_spec hinv hok).1

def NativeHeld (t : CandleTable) (k : CandleKey) : Prop :=
  ∃ old, t.lookup k = some old ∧ isRollup old = false

/-- The rollup rows of the target are what the whole source emits at the clock,
less the keys native rows hold. -/
def Converged (job : RollupJob) (now : ℤ) (t : CandleTable) : Prop :=
  ∀ c, c ∈ job.rollupRows t ↔
    c ∈ job.materializeFromSource now (job.sourceRows t) ∧ ¬NativeHeld t c.key

theorem mem_materialize_sourceRows :
    c ∈ job.materializeFromSource now (job.sourceRows t) ↔ ∃ b, job.foldAt now t b = some c := by
  have hwhole : job.WholeBuckets (fun _ => true) fun _ => True := fun _ => by simp
  have hrows : ∀ row, row ∈ job.sourceRows t ↔ row ∈ job.sourceRows t ∧ true = true := by simp
  rw [mem_materializeFromSource hwhole hrows (job.sourceRows_distinctTs t)]
  simp

theorem converged_of_settled (hgrounded : job.Grounded t)
    (hsettled : ∀ b, job.targetSecs ∣ b → job.Settled now t b) : job.Converged now t := by
  intro c
  rw [mem_materialize_sourceRows]
  constructor
  · intro hc
    obtain ⟨row, -, hts⟩ := hgrounded c hc
    obtain ⟨hslot, hrollup⟩ := (mem_rollupRows_iff_slot hts).mp hc
    have hheld : ¬NativeHeld t c.key := by
      rintro ⟨old, hold, hnative⟩
      have hkey := slot_key hslot
      rw [slot, ← hkey, hold] at hslot
      cases hslot
      rw [hrollup] at hnative
      cases hnative
    refine ⟨⟨bucketEpoch job.targetSecs row, ?_⟩, hheld⟩
    · rcases hsettled _ (dvd_bucketEpoch _ row) with ⟨old, hold, hnative⟩ | hfold
      · have hkey := slot_key hslot
        exact absurd ⟨old, by rw [hkey]; exact hold, hnative⟩ hheld
      · rw [← hfold, hslot]
  · rintro ⟨⟨b, hb⟩, hheld⟩
    obtain ⟨hkey, hrollup, -, row, -, rfl⟩ := foldAt_spec hb
    apply (mem_rollupRows_iff_slot (foldAt_ts hb)).mpr ⟨_, hrollup⟩
    rcases hsettled _ (dvd_bucketEpoch _ row) with ⟨old, hold, hnative⟩ | hfold
    · exact absurd ⟨old, by rw [hkey]; exact hold, hnative⟩ hheld
    · rw [hfold, hb]

theorem RollupInvariant.of_history {t₀ : CandleTable} {history : List Event}
    (hempty : job.rollupRows t₀ = []) (hsteps : StepsMeet job.step job.StepOk t₀ history)
    (hhistory : exec job.step t₀ history = some t) : job.RollupInvariant t :=
  exec_invariant_of_steps (fun _ _ _ hs hok hstep => step_invariant hs hok hstep)
    (RollupInvariant.of_no_rows hempty) hsteps hhistory

theorem RollupInvariant.converged (hinv : job.RollupInvariant t) (hbegun : job.Begun now t)
    (hkept : job.rollupRows t = [] ∨ job.rollupRows (job.incrementalRecomputeTarget now t) ≠ []) :
    job.Converged now (job.incrementalRecomputeTarget now t) := by
  obtain ⟨hafter, hsettled⟩ := incrementalRecomputeTarget_spec hinv hbegun
  exact converged_of_settled hafter.grounded (hsettled hkept)

/-- Right after a run that starts with no materialized row or leaves one, the
rollup rows are what the whole source emits. -/
theorem rollup_converges (job : RollupJob) {t₀ t : CandleTable} {history : List Event} {now : ℤ}
    (hempty : job.rollupRows t₀ = []) (hsteps : StepsMeet job.step job.StepOk t₀ history)
    (hhistory : exec job.step t₀ history = some t) (hbegun : job.Begun now t)
    (hkept : job.rollupRows t = [] ∨ job.rollupRows (job.incrementalRecomputeTarget now t) ≠ []) :
    job.Converged now (job.incrementalRecomputeTarget now t) := by
  have hinv : job.RollupInvariant t := RollupInvariant.of_history hempty hsteps hhistory
  exact hinv.converged hbegun hkept

end RollupJob

section HalfDays

/-- Daily candles of bitcoin from half-day ones. -/
def halfDayJob : RollupJob where
  coinId := "bitcoin"
  vsCurrency := "usd"
  targetInterval := "1d"
  targetSecs := 86400
  sourceInterval := "12h"
  sourceSecs := 43200
  target_mem := List.mem_cons_self
  source_secs := rfl
  divides := by decide

def hoursInto2024 (h : ℤ) : ℤ := fromTimestamp (1704067200 + 3600 * h)

def halfDay (k : ℤ) : CoinCandle :=
  ⟨"bitcoin", "usd", "12h", hoursInto2024 (12 * k), 100, 110, 90, 105, some 1, "binance"⟩

def wholeDay (d : ℤ) (volume : ℚ) : CoinCandle :=
  ⟨"bitcoin", "usd", "1d", hoursInto2024 (24 * d), 100, 110, 90, 105, some volume, "rollup:12h"⟩

/-- The table after a history of the half-day job from an empty one. -/
def halfDayTable (history : List RollupJob.Event) : CandleTable :=
  (exec halfDayJob.step KeyedTable.empty history).getD KeyedTable.empty

/-- Day 2 arrives and is rolled up; then day 0 arrives, and the first half of
day 3. -/
def lateHistory : List RollupJob.Event :=
  [.write (halfDay 4), .write (halfDay 5), .run (hoursInto2024 72), .write (halfDay 0),
    .write (halfDay 1), .write (halfDay 6)]

theorem rollup_converges_late_history :
    halfDayJob.Converged (hoursInto2024 78)
      (halfDayJob.incrementalRecomputeTarget (hoursInto2024 78) (halfDayTable lateHistory)) := by
  have hrun : exec halfDayJob.step KeyedTable.empty lateHistory = some (halfDayTable lateHistory) :=
    rfl
  apply RollupJob.rollup_converges halfDayJob rfl _ hrun _ (Or.inr _)
  · decide +kernel
  · decide +kernel
  · decide +kernel

/-- Days 0 and 2 are rolled up; then day 1 between them is completed. -/
def gapFillHistory : List RollupJob.Event :=
  [.write (halfDay 0), .write (halfDay 1), .write (halfDay 2), .write (halfDay 4),
    .write (halfDay 5), .run (hoursInto2024 72), .write (halfDay 3)]

/-- Day 0 arrives together with a candle of day 60, before the first run. -/
def futureHistory : List RollupJob.Event :=
  [.write (halfDay 0), .write (halfDay 1), .write (halfDay 120)]

theorem not_converged_of_missing {now : ℤ} {t : CandleTable} {c : CoinCandle}
    (hemitted : c ∈ halfDayJob.materializeFromSource now (halfDayJob.sourceRows t))
    (hfree : t.lookup c.key = none) : ¬halfDayJob.Converged now t := by
  intro hconverged
  have hheld : ¬RollupJob.NativeHeld t c.key := by
    rintro ⟨old, hold, -⟩
    rw [hfree] at hold
    cases hold
  have hrow := (hconverged c).mpr ⟨hemitted, hheld⟩
  rw [RollupJob.mem_rollupRows, hfree] at hrow
  cases hrow.1

/-- A day completed between materialized ones is not materialized, nor is a day
far beyond the clock of a backfill. -/
theorem rollup_diverges :
    ¬halfDayJob.Converged (hoursInto2024 72)
        (halfDayJob.incrementalRecomputeTarget (hoursInto2024 72)
          (halfDayTable gapFillHistory)) ∧
      ¬halfDayJob.Converged (hoursInto2024 48)
        (halfDayJob.incrementalRecomputeTarget (hoursInto2024 48)
          (halfDayTable futureHistory)) := by
  constructor
  · apply not_converged_of_missing (c := wholeDay 1 2)
    · decide +kernel
    · decide +kernel
  · apply not_converged_of_missing (c := wholeDay 60 1)
    · decide +kernel
    · decide +kernel

end HalfDays
end CryptoCollector.Collectors

import CryptoCollector.Collectors.RollupWalk

/-!
# When the backward repair ends

A run looks for source history before the oldest materialized bucket, and repairs it.
The oldest bucket of the source need not be one a fold writes: it may be incomplete, or
held by a native row. What a run leaves is described by the buckets that a fold writes
and by how far the run's windows reach.
-/

namespace CryptoCollector.Collectors
open Models Foundations Db Api DateTime

namespace RollupJob

variable (job : RollupJob)

def sourceBuckets (t : CandleTable) : Set ℤ :=
  {b | ∃ row ∈ job.sourceRows t, bucketEpoch job.targetSecs row = b}

def rollupBuckets (t : CandleTable) : Set ℤ :=
  {b | ∃ c ∈ job.rollupRows t, c.ts = fromTimestamp b}

/-- The rollup rows stand at the starts of buckets. -/
def Aligned (t : CandleTable) : Prop :=
  ∀ c ∈ job.rollupRows t, ∃ b, job.targetSecs ∣ b ∧ c.ts = fromTimestamp b

/-- The window to repair, of a table after the forward pass. -/
def repairWindow (t : CandleTable) : Option (ℤ × ℤ) :=
  match ((job.sourceRows t).map CoinCandle.ts).min?,
    ((job.rollupRows t).map CoinCandle.ts).min? with
  | some sourceMin, some earliestMaterialized =>
    backwardRepairWindow sourceMin earliestMaterialized job.targetSecs
  | _, _ => none

/-- The backward-repair window that a run finds. -/
def foundRepairWindow (now : ℤ) (t : CandleTable) : Option (ℤ × ℤ) :=
  match ((job.rollupRows t).map CoinCandle.ts).max? with
  | none => none
  | some recomputeStart => job.repairWindow (job.recomputeForward now recomputeStart t)

/-- After a run that leaves a rollup row, a run at the same clock finds no window and
leaves the table as it is. -/
def SelfTerminating (now : ℤ) (t : CandleTable) : Prop :=
  job.rollupRows (job.incrementalRecomputeTarget now t) ≠ [] →
    job.foundRepairWindow now (job.incrementalRecomputeTarget now t) = none ∧
      ∀ k, (job.incrementalRecomputeTarget now (job.incrementalRecomputeTarget now t)).lookup k =
        (job.incrementalRecomputeTarget now t).lookup k

variable {job} {t t' : CandleTable} {now b m : ℤ} {c : CoinCandle}

theorem repairHistory_eq (job : RollupJob) (now : ℤ) (t : CandleTable) :
    job.repairHistory now t =
      (job.repairWindow t).elim t fun window =>
        job.materializeWindowWalk now window.1 window.2 t := by
  unfold repairHistory repairWindow
  cases ((job.sourceRows t).map CoinCandle.ts).min? with
  | none => rfl
  | some sourceMin =>
    cases ((job.rollupRows t).map CoinCandle.ts).min? with
    | none => rfl
    | some earliest =>
      simp only
      cases backwardRepairWindow sourceMin earliest job.targetSecs with
      | none => rfl
      | some window => rfl

theorem mem_rollupBuckets :
    b ∈ job.rollupBuckets t ↔ ∃ c, job.slot t b = some c ∧ isRollup c = true := by
  constructor
  · rintro ⟨c, hc, hts⟩
    exact ⟨c, (mem_rollupRows_iff_slot hts).mp hc⟩
  · rintro ⟨c, hslot, hrollup⟩
    exact ⟨c, (mem_rollupRows_iff_slot (slot_ts hslot)).mpr ⟨hslot, hrollup⟩, slot_ts hslot⟩

theorem not_nativeHeld_of_mem (hb : b ∈ job.rollupBuckets t) :
    ¬NativeHeld t (job.targetKey b) := by
  obtain ⟨c, hslot, hrollup⟩ := mem_rollupBuckets.mp hb
  rintro ⟨old, hold, hnative⟩
  rw [slot, hold] at hslot
  cases hslot
  rw [hrollup] at hnative
  cases hnative

theorem mem_rollupBuckets_of_fold (hwrites : job.Writes now t b)
    (hslot : job.slot t' b = job.foldAt now t b) : b ∈ job.rollupBuckets t' := by
  obtain ⟨c, hc⟩ := Option.ne_none_iff_exists'.mp hwrites.1
  exact mem_rollupBuckets.mpr ⟨c, hslot.trans hc, (foldAt_spec hc).2.1⟩

theorem Writes.mem_sourceBuckets (h : job.Writes now t b) : b ∈ job.sourceBuckets t :=
  exists_sourceRow_of_foldAt h.1

theorem nativeHeld_congr (h : ∀ old, isRollup old = false →
    (job.slot t' b = some old ↔ job.slot t b = some old)) :
    NativeHeld t' (job.targetKey b) ↔ NativeHeld t (job.targetKey b) := by
  constructor
  · rintro ⟨old, hold, hnative⟩
    exact ⟨old, (h old hnative).mp hold, hnative⟩
  · rintro ⟨old, hold, hnative⟩
    exact ⟨old, (h old hnative).mpr hold, hnative⟩

theorem Writes.slot_ne (h : job.Writes now t b) {old : CoinCandle} (hold : isRollup old = false) :
    job.slot t b ≠ some old :=
  fun hslot => h.2 ⟨old, hslot, hold⟩

theorem foldAt_ne_native {old : CoinCandle} (hold : isRollup old = false) :
    job.foldAt now t b ≠ some old := by
  intro hfold
  have hrollup := (foldAt_spec hfold).2.1
  rw [hold] at hrollup
  cases hrollup

theorem Refolds.writes {q : ℤ → Prop} (h : job.Refolds now q t t') (b : ℤ) :
    job.Writes now t' b ↔ job.Writes now t b := by
  unfold Writes
  rw [h.foldAt]
  apply and_congr_right
  intro hfold
  rw [nativeHeld_congr]
  intro old hold
  by_cases hq : q b
  · rw [h.slot_on b hq]
    by_cases hwrites : job.Writes now t b
    · rw [refold_of_writes hwrites]
      exact iff_of_false (foldAt_ne_native hold) (hwrites.slot_ne hold)
    · rw [refold_of_not_writes hwrites]
  · rw [h.slot_off hq]

theorem exists_greatest {s : Set ℤ} (hfin : s.Finite) (hne : s.Nonempty) :
    ∃ m, IsGreatest s m := by
  obtain ⟨m, hm, hmax⟩ := Set.exists_max_image s id hfin hne
  exact ⟨m, hm, hmax⟩

theorem exists_least {s : Set ℤ} (hfin : s.Finite) (hne : s.Nonempty) : ∃ m, IsLeast s m := by
  obtain ⟨m, hm, hmin⟩ := Set.exists_min_image s id hfin hne
  exact ⟨m, hm, hmin⟩

theorem sourceBuckets_finite : (job.sourceBuckets t).Finite := by
  have himage : job.sourceBuckets t =
      bucketEpoch job.targetSecs '' {row | row ∈ job.sourceRows t} := rfl
  rw [himage]
  exact (List.finite_toSet _).image _

theorem rollupBuckets_finite : (job.rollupBuckets t).Finite := by
  apply ((List.finite_toSet (job.rollupRows t)).image fun c => timestamp c.ts).subset
  rintro b ⟨c, hc, hts⟩
  exact ⟨c, hc, by simp [hts]⟩

theorem Aligned.nonempty_iff (h : job.Aligned t) :
    job.rollupRows t ≠ [] ↔ (job.rollupBuckets t).Nonempty := by
  constructor
  · intro hrows
    obtain ⟨c, hc⟩ := List.exists_mem_of_ne_nil _ hrows
    obtain ⟨b, -, hts⟩ := h c hc
    exact ⟨b, c, hc, hts⟩
  · rintro ⟨b, c, hc, -⟩
    exact List.ne_nil_of_mem hc

theorem Aligned.dvd_of_mem (h : job.Aligned t) (hb : b ∈ job.rollupBuckets t) :
    job.targetSecs ∣ b := by
  obtain ⟨c, hc, hts⟩ := hb
  obtain ⟨b', hdvd, hts'⟩ := h c hc
  rwa [fromTimestamp_inj.mp (hts.symm.trans hts')]

theorem Aligned.max?_eq (h : job.Aligned t) (hm : IsGreatest (job.rollupBuckets t) m) :
    ((job.rollupRows t).map CoinCandle.ts).max? = some (fromTimestamp m) := by
  rw [List.max?_eq_some_iff]
  obtain ⟨c, hc, hts⟩ := hm.1
  refine ⟨List.mem_map.mpr ⟨c, hc, hts⟩, ?_⟩
  intro ts hts'
  obtain ⟨d, hd, rfl⟩ := List.mem_map.mp hts'
  obtain ⟨b, -, hdb⟩ := h d hd
  rw [hdb, fromTimestamp_le]
  exact hm.2 ⟨d, hd, hdb⟩

theorem Aligned.min?_eq (h : job.Aligned t) (hm : IsLeast (job.rollupBuckets t) m) :
    ((job.rollupRows t).map CoinCandle.ts).min? = some (fromTimestamp m) := by
  rw [List.min?_eq_some_iff]
  obtain ⟨c, hc, hts⟩ := hm.1
  refine ⟨List.mem_map.mpr ⟨c, hc, hts⟩, ?_⟩
  intro ts hts'
  obtain ⟨d, hd, rfl⟩ := List.mem_map.mp hts'
  obtain ⟨b, -, hdb⟩ := h d hd
  rw [hdb, fromTimestamp_le]
  exact hm.2 ⟨d, hd, hdb⟩

theorem isLeast_sourceBuckets {first : ℤ}
    (hfirst : ((job.sourceRows t).map CoinCandle.ts).min? = some first) :
    IsLeast (job.sourceBuckets t) (timestamp (bucketStart first job.targetSecs)) := by
  obtain ⟨hmem, -⟩ := List.min?_eq_some_iff.mp hfirst
  obtain ⟨row, hrow, hts⟩ := List.mem_map.mp hmem
  refine ⟨⟨row, hrow, by rw [bucketEpoch, hts]⟩, ?_⟩
  rintro b ⟨other, hother, rfl⟩
  exact timestamp_mono (bucketStart_mono job.targetSecs_pos (min?_ts_le hfirst hother))

def weekOf (b : ℤ) : ℤ := b - b % weekSecs

theorem weekOf_le (b : ℤ) : weekOf b ≤ b := by
  have hmod := Int.emod_nonneg b (by decide : weekSecs ≠ 0)
  unfold weekOf
  omega

theorem weekOf_bucketStart (job : RollupJob) (x : ℤ) :
    weekOf (timestamp (bucketStart x job.targetSecs)) = timestamp (bucketStart x weekSecs) := by
  rw [timestamp_bucketStart, timestamp_bucketStart]
  unfold weekOf weekSecs
  rcases job.targetSecs_eq with hsecs | hsecs
  · rw [hsecs]
    omega
  · rw [hsecs]
    omega

theorem bucketStart_week (b : ℤ) : bucketStart (fromTimestamp b) weekSecs =
    fromTimestamp (weekOf b) := by
  rw [bucketStart, timestamp_fromTimestamp, weekOf]

/-- A window is found exactly when the oldest source bucket is before the oldest rollup
bucket, from its week up to that bucket. -/
theorem Aligned.repairWindow_eq_some_iff (h : job.Aligned t) {window : ℤ × ℤ} :
    job.repairWindow t = some window ↔
      ∃ b₀ e, IsLeast (job.sourceBuckets t) b₀ ∧ IsLeast (job.rollupBuckets t) e ∧ b₀ < e ∧
        window = (fromTimestamp (weekOf b₀), fromTimestamp e) := by
  unfold repairWindow
  cases hmin : ((job.sourceRows t).map CoinCandle.ts).min? with
  | none =>
    rw [List.min?_eq_none_iff, List.map_eq_nil_iff] at hmin
    constructor
    · intro hnone
      cases hnone
    · rintro ⟨b₀, -, ⟨⟨row, hrow, -⟩, -⟩, -⟩
      rw [hmin] at hrow
      cases hrow
  | some first =>
    have hleast := isLeast_sourceBuckets hmin
    by_cases hne : (job.rollupBuckets t).Nonempty
    · obtain ⟨e, he⟩ := exists_least rollupBuckets_finite hne
      have hbefore : bucketStart first job.targetSecs < fromTimestamp e ↔
          timestamp (bucketStart first job.targetSecs) < e := by
        rw [← @fromTimestamp_lt (timestamp _) e, fromTimestamp_bucketStart]
      simp only [h.min?_eq he, backwardRepairWindow, hbefore]
      rw [Option.ite_none_right_eq_some, Option.some.injEq]
      constructor
      · rintro ⟨hlt, rfl⟩
        refine ⟨_, e, hleast, he, hlt, ?_⟩
        rw [job.weekOf_bucketStart, fromTimestamp_bucketStart]
      · rintro ⟨b₀, e', hb₀, he', hlt, rfl⟩
        rw [hb₀.unique hleast, he'.unique he] at hlt ⊢
        refine ⟨hlt, ?_⟩
        rw [job.weekOf_bucketStart, fromTimestamp_bucketStart]
    · have hnone : job.rollupRows t = [] := by
        by_contra hrows
        exact hne (h.nonempty_iff.mp hrows)
      rw [hnone]
      constructor
      · intro hsome
        cases hsome
      · rintro ⟨b₀, e, -, he, -⟩
        exact absurd ⟨e, he.1⟩ hne

theorem Aligned.repairWindow_eq_none_iff (h : job.Aligned t)
    (hrows : (job.rollupBuckets t).Nonempty) :
    job.repairWindow t = none ↔
      ∀ b, IsLeast (job.sourceBuckets t) b → ∃ e ∈ job.rollupBuckets t, e ≤ b := by
  obtain ⟨e, he⟩ := exists_least rollupBuckets_finite hrows
  constructor
  · intro hnone b hb
    refine ⟨e, he.1, ?_⟩
    by_contra hlt
    have hsome := h.repairWindow_eq_some_iff.mpr ⟨b, e, hb, he, not_le.mp hlt, rfl⟩
    rw [hnone] at hsome
    cases hsome
  · intro hall
    rw [Option.eq_none_iff_forall_ne_some]
    intro window hwindow
    obtain ⟨b₀, e', hb₀, he', hlt, -⟩ := h.repairWindow_eq_some_iff.mp hwindow
    obtain ⟨e'', he'', hle⟩ := hall b₀ hb₀
    exact absurd (hlt.trans_le (he'.2 he'')) (not_lt.mpr hle)

section Forward

theorem mem_staleFrom_iff (h : job.Aligned t) (hm : IsGreatest (job.rollupBuckets t) m) {ts : ℤ} :
    ts ∈ job.staleFrom now (fromTimestamp m) t ↔
      ts = fromTimestamp m ∧ job.foldAt now t m = none := by
  have hdvd := h.dvd_of_mem hm.1
  rw [mem_staleFrom]
  constructor
  · rintro ⟨c, hc, rfl, hlow, hgone⟩
    obtain ⟨b, -, hts⟩ := h c hc
    have hle := hm.2 ⟨c, hc, hts⟩
    rw [hts, fromTimestamp_le] at hlow
    obtain rfl : b = m := by omega
    rw [hts, timestamp_fromTimestamp, mem_emittedFrom_ts hdvd le_rfl, not_not] at hgone
    exact ⟨hts, hgone⟩
  · rintro ⟨rfl, hnone⟩
    obtain ⟨c, hc, hts⟩ := hm.1
    refine ⟨c, hc, hts, le_rfl, ?_⟩
    rw [timestamp_fromTimestamp, mem_emittedFrom_ts hdvd le_rfl, not_not]
    exact hnone

variable (haligned : job.Aligned t) (hm : IsGreatest (job.rollupBuckets t) m)

include haligned hm

theorem forward_lookup_off {k : CandleKey} (hk : ∀ b, m ≤ b → k ≠ job.targetKey b) :
    (job.recomputeForward now (fromTimestamp m) t).lookup k = t.lookup k := by
  rw [recomputeForward_eq, lookup_deletes, if_neg,
    (refolds_emittedFrom now t (haligned.dvd_of_mem hm.1)).lookup_off k hk]
  rintro ⟨ts, hts, hkey⟩
  obtain ⟨rfl, -⟩ := (mem_staleFrom_iff haligned hm).mp hts
  exact hk m le_rfl hkey

theorem forward_slot_of_writes (hb : m ≤ b) (hwrites : job.Writes now t b) :
    job.slot (job.recomputeForward now (fromTimestamp m) t) b = job.foldAt now t b := by
  rw [recomputeForward_slot now t (haligned.dvd_of_mem hm.1) hb, if_neg, refold_of_writes hwrites]
  intro hstale
  obtain ⟨hts, hnone⟩ := (mem_staleFrom_iff haligned hm).mp hstale
  rw [← fromTimestamp_inj.mp hts] at hnone
  exact hwrites.1 hnone

theorem forward_slot_of_not_writes (hb : b ≠ m) (hwrites : m ≤ b → ¬job.Writes now t b) :
    job.slot (job.recomputeForward now (fromTimestamp m) t) b = job.slot t b := by
  by_cases hle : m ≤ b
  · rw [recomputeForward_slot now t (haligned.dvd_of_mem hm.1) hle, if_neg,
      refold_of_not_writes (hwrites hle)]
    intro hstale
    exact hb (fromTimestamp_inj.mp ((mem_staleFrom_iff haligned hm).mp hstale).1)
  · apply forward_lookup_off haligned hm
    intro b' hb' hkey
    have hsame := targetKey_inj.mp hkey
    omega

theorem forward_slot_newest (hwrites : ¬job.Writes now t m) :
    job.slot (job.recomputeForward now (fromTimestamp m) t) m = none := by
  have hnone : job.foldAt now t m = none := by
    by_contra hsome
    exact hwrites ⟨hsome, not_nativeHeld_of_mem hm.1⟩
  obtain ⟨c, hslot, hrollup⟩ := mem_rollupBuckets.mp hm.1
  rw [recomputeForward_slot now t (haligned.dvd_of_mem hm.1) le_rfl,
    if_pos ((mem_staleFrom_iff haligned hm).mpr ⟨rfl, hnone⟩), refold_of_not_writes hwrites, hslot]
  simp [Option.filter, hrollup]

/-- The forward pass changes nothing exactly when the newest rollup bucket is written and
the buckets from it on are as they are written. -/
theorem forward_unchanged_iff :
    (∀ k, (job.recomputeForward now (fromTimestamp m) t).lookup k = t.lookup k) ↔
      job.Writes now t m ∧
        ∀ b, m ≤ b → job.Writes now t b → job.slot t b = job.foldAt now t b := by
  constructor
  · intro hsame
    constructor
    · by_contra hwrites
      obtain ⟨c, hslot, -⟩ := mem_rollupBuckets.mp hm.1
      have hgone := forward_slot_newest haligned hm hwrites
      have hback : job.slot (job.recomputeForward now (fromTimestamp m) t) m = job.slot t m :=
        hsame _
      rw [hback, hslot] at hgone
      cases hgone
    · intro b hb hwrites
      rw [← forward_slot_of_writes haligned hm hb hwrites]
      exact (hsame _).symm
  · rintro ⟨hwrites, hcurrent⟩ k
    by_cases hk : ∃ b, m ≤ b ∧ k = job.targetKey b
    · obtain ⟨b, hb, rfl⟩ := hk
      by_cases hb' : job.Writes now t b
      · exact (forward_slot_of_writes haligned hm hb hb').trans (hcurrent b hb hb').symm
      · exact forward_slot_of_not_writes haligned hm (fun heq => hb' (heq ▸ hwrites)) fun _ => hb'
    · push Not at hk
      exact forward_lookup_off haligned hm hk

end Forward

theorem rows_congr (job : RollupJob) (h : ∀ k, t'.lookup k = t.lookup k) :
    job.sourceBuckets t' = job.sourceBuckets t ∧ job.rollupBuckets t' = job.rollupBuckets t ∧
      (job.Aligned t → job.Aligned t') := by
  refine ⟨?_, ?_, ?_⟩
  · ext b
    refine exists_congr fun row => and_congr_left fun _ => ?_
    rw [mem_sourceRows, mem_sourceRows, h]
  · ext b
    rw [mem_rollupBuckets, mem_rollupBuckets, slot, slot, h]
  · intro haligned c hc
    rw [mem_rollupRows, h] at hc
    exact haligned c (mem_rollupRows.mpr hc)

/-- A run finds no window and changes nothing exactly when the newest rollup bucket is
written, the buckets from it on are as they are written, and the oldest source bucket
is not before the oldest rollup bucket. -/
theorem rerun_iff (haligned : job.Aligned t) (hm : IsGreatest (job.rollupBuckets t) m) :
    (job.foundRepairWindow now t = none ∧
        ∀ k, (job.incrementalRecomputeTarget now t).lookup k = t.lookup k) ↔
      job.Writes now t m ∧
        (∀ b, m ≤ b → job.Writes now t b → job.slot t b = job.foldAt now t b) ∧
        ∀ b, IsLeast (job.sourceBuckets t) b → ∃ e ∈ job.rollupBuckets t, e ≤ b := by
  have hrun : job.incrementalRecomputeTarget now t =
      job.repairHistory now (job.recomputeForward now (fromTimestamp m) t) := by
    rw [incrementalRecomputeTarget, haligned.max?_eq hm]
  have hfound : job.foundRepairWindow now t =
      job.repairWindow (job.recomputeForward now (fromTimestamp m) t) := by
    rw [foundRepairWindow, haligned.max?_eq hm]
  have hwindow : (∀ k, (job.recomputeForward now (fromTimestamp m) t).lookup k = t.lookup k) →
      (job.repairWindow (job.recomputeForward now (fromTimestamp m) t) = none ↔
        ∀ b, IsLeast (job.sourceBuckets t) b → ∃ e ∈ job.rollupBuckets t, e ≤ b) := by
    intro hsame
    obtain ⟨hsource, hrollup, haligned'⟩ := rows_congr job hsame
    rw [(haligned' haligned).repairWindow_eq_none_iff (hrollup ▸ ⟨m, hm.1⟩), hsource, hrollup]
  rw [hrun, hfound, repairHistory_eq, ← and_assoc, ← forward_unchanged_iff haligned hm]
  constructor
  · rintro ⟨hnone, hsame⟩
    rw [hnone] at hsame
    exact ⟨hsame, (hwindow hsame).mp hnone⟩
  · rintro ⟨hsame, hleast⟩
    have hnone := (hwindow hsame).mpr hleast
    rw [hnone]
    exact ⟨rfl, hsame⟩

/-- What a run leaves: the rollup rows it keeps, and the written buckets it reaches. -/
structure RunLeaves (job : RollupJob) (now : ℤ) (t t' : CandleTable) (kept : Set ℤ)
    (reaches : ℤ → Prop) : Prop where
  off : ∀ k, (∀ b, k ≠ job.targetKey b) → t'.lookup k = t.lookup k
  writes : ∀ b, job.Writes now t' b ↔ job.Writes now t b
  kept_subset : kept ⊆ job.rollupBuckets t
  rollup : ∀ b, b ∈ job.rollupBuckets t' ↔ b ∈ kept ∨ job.Writes now t b ∧ reaches b
  current : ∀ b, job.Writes now t b →
    (job.slot t' b = job.foldAt now t b ↔ reaches b ∨ job.slot t b = job.foldAt now t b)

namespace RunLeaves

variable {kept : Set ℤ} {reaches q : ℤ → Prop} {t'' : CandleTable}

theorem refl : job.RunLeaves now t t (job.rollupBuckets t) fun _ => False where
  off _ _ := rfl
  writes _ := Iff.rfl
  kept_subset := subset_rfl
  rollup b := by simp
  current b _ := by simp

theorem sourceRows (h : job.RunLeaves now t t' kept reaches) (row : CoinCandle) :
    row ∈ job.sourceRows t' ↔ row ∈ job.sourceRows t := by
  rw [mem_sourceRows, mem_sourceRows]
  apply and_congr_left
  rintro ⟨-, -, hinterval⟩
  rw [h.off]
  intro b hkey
  exact job.source_ne_target (hinterval.symm.trans (congrArg CandleKey.interval hkey))

theorem foldAt (h : job.RunLeaves now t t' kept reaches) (b : ℤ) :
    job.foldAt now t' b = job.foldAt now t b :=
  foldAt_congr h.sourceRows

theorem sourceBuckets (h : job.RunLeaves now t t' kept reaches) :
    job.sourceBuckets t' = job.sourceBuckets t := by
  ext b
  exact exists_congr fun row => and_congr_left fun _ => h.sourceRows row

theorem aligned (h : job.RunLeaves now t t' kept reaches) (haligned : job.Aligned t) :
    job.Aligned t' := by
  intro c hc
  obtain ⟨hlookup, hseries, hrollup⟩ := mem_rollupRows.mp hc
  by_cases hkey : ∃ b, c.key = job.targetKey b
  · obtain ⟨b, hb⟩ := hkey
    have hts : c.ts = fromTimestamp b := congrArg CandleKey.ts hb
    refine ⟨b, ?_, hts⟩
    rcases (h.rollup b).mp ⟨c, hc, hts⟩ with hkept | ⟨hwrites, -⟩
    · exact haligned.dvd_of_mem (h.kept_subset hkept)
    · obtain ⟨row, -, rfl⟩ := hwrites.mem_sourceBuckets
      exact dvd_bucketEpoch _ row
  · push Not at hkey
    rw [h.off _ hkey] at hlookup
    exact haligned c (mem_rollupRows.mpr ⟨hlookup, hseries, hrollup⟩)

theorem refold (h : job.RunLeaves now t t' kept reaches) (hrefolds : job.Refolds now q t' t'') :
    job.RunLeaves now t t'' kept fun b => reaches b ∨ q b where
  off k hk := (hrefolds.lookup_off k fun b _ => hk b).trans (h.off k hk)
  writes b := (hrefolds.writes b).trans (h.writes b)
  kept_subset := h.kept_subset
  rollup b := by
    by_cases hon : q b ∧ job.Writes now t b
    · obtain ⟨hq, hwrites⟩ := hon
      have hslot : job.slot t'' b = job.foldAt now t b := by
        rw [hrefolds.slot_on b hq, refold_of_writes ((h.writes b).mpr hwrites), h.foldAt]
      exact iff_of_true (mem_rollupBuckets_of_fold hwrites hslot) (Or.inr ⟨hwrites, Or.inr hq⟩)
    · have hslot : job.slot t'' b = job.slot t' b := by
        by_cases hq : q b
        · rw [hrefolds.slot_on b hq, refold_of_not_writes]
          exact fun hwrites => hon ⟨hq, (h.writes b).mp hwrites⟩
        · exact hrefolds.slot_off hq
      rw [mem_rollupBuckets, hslot, ← mem_rollupBuckets, h.rollup b]
      constructor
      · rintro (hkept | ⟨hwrites, hreaches⟩)
        · exact Or.inl hkept
        · exact Or.inr ⟨hwrites, Or.inl hreaches⟩
      · rintro (hkept | ⟨hwrites, hreaches | hq⟩)
        · exact Or.inl hkept
        · exact Or.inr ⟨hwrites, hreaches⟩
        · exact absurd ⟨hq, hwrites⟩ hon
  current b hwrites := by
    by_cases hq : q b
    · have hslot : job.slot t'' b = job.foldAt now t b := by
        rw [hrefolds.slot_on b hq, refold_of_writes ((h.writes b).mpr hwrites), h.foldAt]
      exact iff_of_true hslot (Or.inl (Or.inr hq))
    · rw [hrefolds.slot_off hq, h.current b hwrites]
      simp [hq]

theorem congr (h : job.RunLeaves now t t' kept reaches)
    (hq : ∀ b, job.Writes now t b → (reaches b ↔ q b)) : job.RunLeaves now t t' kept q where
  off := h.off
  writes := h.writes
  kept_subset := h.kept_subset
  rollup b := by rw [h.rollup b, and_congr_right (hq b)]
  current b hwrites := by rw [h.current b hwrites, hq b hwrites]

/-- The newest rollup bucket a run leaves is written, and current with those after it,
exactly when the newest bucket kept or written is written and current. -/
theorem newest_current_iff (h : job.RunLeaves now t t' kept reaches)
    (hm : IsGreatest (job.rollupBuckets t') m) :
    (job.Writes now t m ∧
        ∀ b, m ≤ b → job.Writes now t b → job.slot t' b = job.foldAt now t b) ↔
      ∃ x, IsGreatest (kept ∪ {b | job.Writes now t b}) x ∧ job.Writes now t x ∧
        (reaches x ∨ job.slot t x = job.foldAt now t x) := by
  constructor
  · rintro ⟨hwrites, hcurrent⟩
    refine ⟨m, ⟨Or.inr hwrites, ?_⟩, hwrites, (h.current m hwrites).mp (hcurrent m le_rfl hwrites)⟩
    rintro b (hkept | hwrites')
    · exact hm.2 ((h.rollup b).mpr (Or.inl hkept))
    · by_contra hlt
      exact hlt (hm.2 (mem_rollupBuckets_of_fold hwrites' (hcurrent b (not_le.mp hlt).le hwrites')))
  · rintro ⟨x, ⟨-, hgreatest⟩, hwrites, hcurrent⟩
    have hslot := (h.current x hwrites).mpr hcurrent
    have hx : x ∈ job.rollupBuckets t' := mem_rollupBuckets_of_fold hwrites hslot
    have hmx : m ≤ x := by
      rcases (h.rollup m).mp hm.1 with hkept | ⟨hwrites', -⟩
      · exact hgreatest (Or.inl hkept)
      · exact hgreatest (Or.inr hwrites')
    obtain rfl : m = x := le_antisymm hmx (hm.2 hx)
    refine ⟨hwrites, ?_⟩
    intro b hb hwrites'
    have hle : b ≤ m := hgreatest (Or.inr hwrites')
    obtain rfl : b = m := le_antisymm hle hb
    exact hslot

/-- When a run leaves a rollup row, another one finds no window and changes nothing
exactly when the rows left begin with the source, and the last bucket written or kept is
a written one the run has brought up to date. -/
theorem rerun_iff (h : job.RunLeaves now t t' kept reaches) (haligned : job.Aligned t) :
    (job.rollupRows t' ≠ [] → job.foundRepairWindow now t' = none ∧
        ∀ k, (job.incrementalRecomputeTarget now t').lookup k = t'.lookup k) ↔
      ((∃ b, b ∈ kept ∨ job.Writes now t b ∧ reaches b) →
        (∀ b, IsLeast (job.sourceBuckets t) b →
          ∃ e, (e ∈ kept ∨ job.Writes now t e ∧ reaches e) ∧ e ≤ b) ∧
        ∃ x, IsGreatest (kept ∪ {b | job.Writes now t b}) x ∧ job.Writes now t x ∧
          (reaches x ∨ job.slot t x = job.foldAt now t x)) := by
  have haligned' := h.aligned haligned
  have hrows : job.rollupRows t' ≠ [] ↔ ∃ b, b ∈ kept ∨ job.Writes now t b ∧ reaches b := by
    rw [haligned'.nonempty_iff]
    exact exists_congr h.rollup
  rw [hrows]
  apply imp_congr_right
  intro hleft
  obtain ⟨m, hm⟩ := exists_greatest rollupBuckets_finite
    (haligned'.nonempty_iff.mp (hrows.mpr hleft))
  rw [RollupJob.rerun_iff haligned' hm, h.sourceBuckets]
  simp only [h.writes, h.foldAt]
  have hfirst : (∀ b, IsLeast (job.sourceBuckets t) b → ∃ e ∈ job.rollupBuckets t', e ≤ b) ↔
      ∀ b, IsLeast (job.sourceBuckets t) b →
        ∃ e, (e ∈ kept ∨ job.Writes now t e ∧ reaches e) ∧ e ≤ b := by
    simp only [h.rollup]
  rw [hfirst, ← and_assoc, and_comm, h.newest_current_iff hm]

end RunLeaves

theorem forward_writes (haligned : job.Aligned t) (hm : IsGreatest (job.rollupBuckets t) m)
    (b : ℤ) :
    job.Writes now (job.recomputeForward now (fromTimestamp m) t) b ↔ job.Writes now t b := by
  have hsource := recomputeForward_sourceRows now t (haligned.dvd_of_mem hm.1)
  have hfold : job.foldAt now (job.recomputeForward now (fromTimestamp m) t) b =
      job.foldAt now t b := foldAt_congr hsource
  unfold Writes
  rw [hfold]
  apply and_congr_right
  intro _
  rw [nativeHeld_congr]
  intro old hold
  by_cases hon : m ≤ b ∧ job.Writes now t b
  · rw [forward_slot_of_writes haligned hm hon.1 hon.2]
    exact iff_of_false (foldAt_ne_native hold) (hon.2.slot_ne hold)
  · by_cases hb : b = m
    · subst hb
      rw [forward_slot_newest haligned hm fun hwrites => hon ⟨le_rfl, hwrites⟩]
      apply iff_of_false (by simp)
      intro hslot
      exact not_nativeHeld_of_mem hm.1 ⟨old, hslot, hold⟩
    · rw [forward_slot_of_not_writes haligned hm hb fun hle hwrites => hon ⟨hle, hwrites⟩]

/-- The forward pass keeps all rollup rows but the newest, and writes from there on. -/
theorem forward_leaves (now : ℤ) (haligned : job.Aligned t)
    (hm : IsGreatest (job.rollupBuckets t) m) :
    job.RunLeaves now t (job.recomputeForward now (fromTimestamp m) t)
      (job.rollupBuckets t \ {m}) fun b => m ≤ b where
  off k hk := forward_lookup_off haligned hm fun b _ => hk b
  writes := forward_writes haligned hm
  kept_subset := Set.sdiff_subset
  rollup b := by
    by_cases hon : m ≤ b ∧ job.Writes now t b
    · have hslot := forward_slot_of_writes haligned hm hon.1 hon.2
      exact iff_of_true (mem_rollupBuckets_of_fold hon.2 hslot) (Or.inr hon.symm)
    · have hnot : ¬(job.Writes now t b ∧ m ≤ b) := fun h => hon h.symm
      rw [or_iff_left hnot, mem_rollupBuckets]
      by_cases hb : b = m
      · subst hb
        rw [forward_slot_newest haligned hm fun hwrites => hon ⟨le_rfl, hwrites⟩]
        simp
      · rw [forward_slot_of_not_writes haligned hm hb fun hle hwrites => hon ⟨hle, hwrites⟩,
          ← mem_rollupBuckets]
        exact (and_iff_left hb).symm
  current b hwrites := by
    by_cases hle : m ≤ b
    · exact iff_of_true (forward_slot_of_writes haligned hm hle hwrites) (Or.inl hle)
    · rw [forward_slot_of_not_writes haligned hm (by omega) fun h => absurd h hle]
      simp [hle]

variable (job) in
/-- How far a backfill reaches. -/
def BackfillReaches (now : ℤ) (t : CandleTable) (b : ℤ) : Prop :=
  ∃ b₀, IsLeast (job.sourceBuckets t) b₀ ∧ b < walkStop (weekOf b₀) (timestamp now)

variable (job) in
/-- The rollup rows that the forward pass leaves when the newest is at `m`. -/
def leftBuckets (now : ℤ) (t : CandleTable) (m : ℤ) : Set ℤ :=
  {b | b ∈ job.rollupBuckets t \ {m} ∨ job.Writes now t b ∧ m ≤ b}

variable (job) in
/-- How far the repair reaches, where there is one. -/
def RepairReaches (now : ℤ) (t : CandleTable) (m b : ℤ) : Prop :=
  ∃ b₀ e, IsLeast (job.sourceBuckets t) b₀ ∧ IsLeast (job.leftBuckets now t m) e ∧ b₀ < e ∧
    b < walkStop (weekOf b₀) e

theorem Writes.weekOf_le {b₀ : ℤ} (h : job.Writes now t b)
    (hleast : IsLeast (job.sourceBuckets t) b₀) : weekOf b₀ ≤ b :=
  (RollupJob.weekOf_le b₀).trans (hleast.2 h.mem_sourceBuckets)

theorem backfill_leaves (hrows : job.rollupRows t = []) :
    job.RunLeaves now t (job.incrementalRecomputeTarget now t) ∅ (job.BackfillReaches now t) := by
  have hempty : job.rollupBuckets t = ∅ := by
    ext b
    simp [rollupBuckets, hrows]
  have hrun : job.incrementalRecomputeTarget now t = job.backfillTarget now t := by
    rw [incrementalRecomputeTarget, hrows]
    rfl
  rw [hrun, ← hempty, backfillTarget]
  cases hmin : ((job.sourceRows t).map CoinCandle.ts).min? with
  | none =>
    apply RunLeaves.refl.congr
    intro b hwrites
    exact absurd (foldAt_none_of_no_source hmin) hwrites.1
  | some first =>
    have hleast := isLeast_sourceBuckets hmin
    apply (RunLeaves.refl.refold (job.refolds_windowWalk now first now t)).congr
    intro b hwrites
    rw [false_or, ← job.weekOf_bucketStart, BackfillReaches]
    constructor
    · rintro ⟨-, hhigh⟩
      exact ⟨_, hleast, hhigh⟩
    · rintro ⟨b₀, hb₀, hhigh⟩
      rw [hb₀.unique hleast] at hhigh
      exact ⟨hwrites.weekOf_le hleast, hhigh⟩

/-- The repair folds the windows up to the oldest rollup bucket again, where the source
begins before it. -/
theorem refolds_repairHistory (now : ℤ) (haligned : job.Aligned t) :
    ∃ q, job.Refolds now q t (job.repairHistory now t) ∧ ∀ b, job.Writes now t b →
      (q b ↔ ∃ b₀ e, IsLeast (job.sourceBuckets t) b₀ ∧ IsLeast (job.rollupBuckets t) e ∧
        b₀ < e ∧ b < walkStop (weekOf b₀) e) := by
  rw [repairHistory_eq]
  cases hwindow : job.repairWindow t with
  | none =>
    refine ⟨_, refolds_of_empty fun _ (hq : False) => hq.elim, ?_⟩
    rintro b -
    rw [false_iff]
    rintro ⟨b₀, e, hb₀, he, hlt, -⟩
    have hsome := haligned.repairWindow_eq_some_iff.mpr ⟨b₀, e, hb₀, he, hlt, rfl⟩
    rw [hwindow] at hsome
    cases hsome
  | some window =>
    obtain ⟨b₀, e, hb₀, he, hlt, rfl⟩ := haligned.repairWindow_eq_some_iff.mp hwindow
    have hwalk := job.refolds_windowWalk now (fromTimestamp b₀) (fromTimestamp e) t
    simp only [bucketStart_week, timestamp_fromTimestamp] at hwalk
    refine ⟨_, hwalk, ?_⟩
    intro b hwrites
    constructor
    · rintro ⟨-, hhigh⟩
      exact ⟨b₀, e, hb₀, he, hlt, hhigh⟩
    · rintro ⟨b₀', e', hb₀', he', -, hhigh⟩
      rw [hb₀'.unique hb₀, he'.unique he] at hhigh
      exact ⟨hwrites.weekOf_le hb₀, hhigh⟩

theorem recompute_leaves (haligned : job.Aligned t) (hm : IsGreatest (job.rollupBuckets t) m) :
    job.RunLeaves now t (job.incrementalRecomputeTarget now t) (job.rollupBuckets t \ {m})
      fun b => m ≤ b ∨ job.RepairReaches now t m b := by
  have hforward := forward_leaves now haligned hm
  have hleft : job.rollupBuckets (job.recomputeForward now (fromTimestamp m) t) =
      job.leftBuckets now t m := Set.ext hforward.rollup
  rw [incrementalRecomputeTarget, haligned.max?_eq hm]
  obtain ⟨q, hrefolds, hq⟩ := refolds_repairHistory now (hforward.aligned haligned)
  apply (hforward.refold hrefolds).congr
  intro b hwrites
  rw [hq b ((hforward.writes b).mpr hwrites), hforward.sourceBuckets, hleft, RepairReaches]

theorem Aligned.of_no_rows (hrows : job.rollupRows t = []) : job.Aligned t := by
  simp [Aligned, hrows]

theorem Aligned.run (haligned : job.Aligned t) (now : ℤ) :
    job.Aligned (job.incrementalRecomputeTarget now t) := by
  by_cases hrows : job.rollupRows t = []
  · exact (backfill_leaves hrows).aligned haligned
  · obtain ⟨m, hm⟩ := exists_greatest rollupBuckets_finite (haligned.nonempty_iff.mp hrows)
    exact (recompute_leaves haligned hm).aligned haligned

/-- The providers write no rollup row of the target. -/
def NativeOnly (job : RollupJob) : Event → Prop
  | .write candle => candle.coinId = job.coinId ∧ candle.vsCurrency = job.vsCurrency ∧
      candle.interval = job.targetInterval → isRollup candle = false
  | .run _ => True

instance (job : RollupJob) (e : Event) : Decidable (job.NativeOnly e) :=
  match e with
  | .write _ => inferInstanceAs (Decidable (_ → _))
  | .run _ => inferInstanceAs (Decidable True)

/-- Whatever the providers write and whenever the rollup runs, its rows stand at the
starts of buckets. -/
theorem aligned_of_history {t₀ : CandleTable} {history : List Event}
    (hempty : job.rollupRows t₀ = []) (hnative : ∀ e ∈ history, job.NativeOnly e)
    (hrun : exec job.step t₀ history = some t) : job.Aligned t := by
  have hstep : ∀ s e s', job.Aligned s → job.NativeOnly e → job.step s e = some s' →
      job.Aligned s' := by
    intro s e s' haligned hok hstep
    cases e with
    | write candle =>
      cases hstep
      intro c hc
      exact haligned c (mem_rollupRows_of_write hok hc)
    | run now =>
      cases hstep
      exact haligned.run now
  exact exec_invariant_of_steps hstep (Aligned.of_no_rows hempty)
    (stepsMeet_of_forall job.step (fun e he _ => hnative e he) t₀) hrun

/-- A backfill is enough: it writes no bucket, or it writes the oldest one of the source
and every other that can be written. -/
def BackfillSuffices (job : RollupJob) (now : ℤ) (t : CandleTable) : Prop :=
  (∀ b, job.Writes now t b → ¬job.BackfillReaches now t b) ∨
    (∀ b, IsLeast (job.sourceBuckets t) b → job.Writes now t b) ∧
      ∀ b, job.Writes now t b → job.BackfillReaches now t b

/-- A recompute from the newest rollup row at `m` is enough: it leaves no rollup row, or
the oldest source bucket is written or not before what the forward pass leaves, and the
last bucket written or kept is a written one that the run brings up to date. -/
def RecomputeSuffices (job : RollupJob) (now : ℤ) (t : CandleTable) (m : ℤ) : Prop :=
  (job.leftBuckets now t m).Nonempty →
    (∀ b, IsLeast (job.sourceBuckets t) b →
      job.Writes now t b ∨ ∃ e ∈ job.leftBuckets now t m, e ≤ b) ∧
    ∃ x, IsGreatest (job.rollupBuckets t \ {m} ∪ {b | job.Writes now t b}) x ∧
      job.Writes now t x ∧
        (m ≤ x ∨ job.slot t x = job.foldAt now t x ∨ job.RepairReaches now t m x)

theorem selfTerminating_backfill (haligned : job.Aligned t) (hrows : job.rollupRows t = []) :
    job.SelfTerminating now t ↔ job.BackfillSuffices now t := by
  have hempty : job.rollupBuckets t = ∅ := by
    ext b
    simp [rollupBuckets, hrows]
  rw [SelfTerminating, (backfill_leaves hrows).rerun_iff haligned]
  simp only [Set.mem_empty_iff_false, false_or, Set.empty_union]
  constructor
  · intro h
    by_cases hnone : ∃ b, job.Writes now t b ∧ job.BackfillReaches now t b
    · right
      obtain ⟨hfirst, x, hx, hwrites, hcurrent⟩ := h hnone
      refine ⟨?_, ?_⟩
      · intro b hb
        obtain ⟨e, ⟨he, -⟩, hle⟩ := hfirst b hb
        obtain rfl : e = b := le_antisymm hle (hb.2 he.mem_sourceBuckets)
        exact he
      · -- what the last written bucket is reached by, all the others are
        have hreaches : job.BackfillReaches now t x := by
          apply hcurrent.resolve_right
          intro hslot
          have hmem := mem_rollupBuckets_of_fold hwrites hslot
          rw [hempty] at hmem
          exact hmem
        obtain ⟨b₀, hb₀, hstop⟩ := hreaches
        intro b hb
        exact ⟨b₀, hb₀, lt_of_le_of_lt (hx.2 hb) hstop⟩
    · left
      push Not at hnone
      exact hnone
  · rintro (hnone | ⟨hfirst, hreaches⟩) ⟨b, hwrites, hb⟩
    · exact absurd hb (hnone b hwrites)
    · have hfinite : {b | job.Writes now t b}.Finite :=
        sourceBuckets_finite.subset fun b hb => Writes.mem_sourceBuckets hb
      obtain ⟨x, hx⟩ := exists_greatest hfinite ⟨b, hwrites⟩
      refine ⟨?_, x, hx, hx.1, Or.inl (hreaches x hx.1)⟩
      intro b₀ hb₀
      have hwritten := hfirst b₀ hb₀
      exact ⟨b₀, ⟨hwritten, hreaches b₀ hwritten⟩, le_rfl⟩

/-- What the run leaves is what the forward pass does, and the written buckets before it
that the repair reaches. -/
theorem left_or_repaired :
    (b ∈ job.rollupBuckets t \ {m} ∨
        job.Writes now t b ∧ (m ≤ b ∨ job.RepairReaches now t m b)) ↔
      b ∈ job.leftBuckets now t m ∨ job.Writes now t b ∧ job.RepairReaches now t m b := by
  simp only [leftBuckets, Set.mem_ofPred_eq]
  tauto

theorem leftBuckets_finite : (job.leftBuckets now t m).Finite := by
  apply (rollupBuckets_finite.union sourceBuckets_finite).subset
  rintro b (⟨hb, -⟩ | ⟨hb, -⟩)
  · exact Or.inl hb
  · exact Or.inr hb.mem_sourceBuckets

theorem selfTerminating_recompute (haligned : job.Aligned t)
    (hm : IsGreatest (job.rollupBuckets t) m) :
    job.SelfTerminating now t ↔ job.RecomputeSuffices now t m := by
  rw [SelfTerminating, (recompute_leaves haligned hm).rerun_iff haligned]
  simp only [left_or_repaired]
  have hleft : (∃ b, b ∈ job.leftBuckets now t m ∨
      job.Writes now t b ∧ job.RepairReaches now t m b) ↔ (job.leftBuckets now t m).Nonempty := by
    constructor
    · rintro ⟨b, hb | ⟨-, b₀, e, -, he, -, -⟩⟩
      · exact ⟨b, hb⟩
      · exact ⟨e, he.1⟩
    · rintro ⟨b, hb⟩
      exact ⟨b, Or.inl hb⟩
  rw [hleft, RecomputeSuffices]
  apply imp_congr_right
  intro hne
  obtain ⟨e, he⟩ := exists_least leftBuckets_finite hne
  apply and_congr
  · apply forall₂_congr
    intro b₀ hb₀
    constructor
    · rintro ⟨b, hb | ⟨hb, -⟩, hle⟩
      · exact Or.inr ⟨b, hb, hle⟩
      · obtain rfl : b = b₀ := le_antisymm hle (hb₀.2 hb.mem_sourceBuckets)
        exact Or.inl hb
    · rintro (hwrites | ⟨b, hb, hle⟩)
      · by_cases hlt : b₀ < e
        · have hstop := lt_walkStop (weekOf b₀) e
          exact ⟨b₀, Or.inr ⟨hwrites, b₀, e, hb₀, he, hlt, by omega⟩, le_rfl⟩
        · exact ⟨e, Or.inl he.1, not_lt.mp hlt⟩
      · exact ⟨b, Or.inl hb, hle⟩
  · apply exists_congr
    intro x
    apply and_congr_right
    intro _
    apply and_congr_right
    intro _
    rw [or_assoc, or_comm (a := job.RepairReaches now t m x)]

/-- The backward repair ends, with the run after it idle, exactly where the run's
windows are enough. -/
theorem selfTerminating_iff (job : RollupJob) (now : ℤ) (t : CandleTable)
    (haligned : job.Aligned t) :
    job.SelfTerminating now t ↔
      (job.rollupRows t = [] → job.BackfillSuffices now t) ∧
        ∀ m, IsGreatest (job.rollupBuckets t) m → job.RecomputeSuffices now t m := by
  by_cases hrows : job.rollupRows t = []
  · rw [selfTerminating_backfill haligned hrows]
    constructor
    · intro h
      refine ⟨fun _ => h, ?_⟩
      rintro m ⟨⟨c, hc, -⟩, -⟩
      rw [hrows] at hc
      cases hc
    · exact fun h => h.1 hrows
  · obtain ⟨m, hm⟩ := exists_greatest rollupBuckets_finite (haligned.nonempty_iff.mp hrows)
    rw [selfTerminating_recompute haligned hm]
    constructor
    · intro h
      refine ⟨fun hnone => absurd hnone hrows, ?_⟩
      intro m' hm'
      rwa [hm'.unique hm]
    · exact fun h => h.2 m hm

end RollupJob

section HalfDays

/-- The source begins in the middle of day 0. -/
def midDayHistory : List RollupJob.Event :=
  [.write (halfDay 1), .write (halfDay 2), .write (halfDay 3)]

theorem selfTerminating_iff_midDay :
    halfDayJob.SelfTerminating (hoursInto2024 72) (halfDayTable midDayHistory) ↔
      (halfDayJob.rollupRows (halfDayTable midDayHistory) = [] →
        halfDayJob.BackfillSuffices (hoursInto2024 72) (halfDayTable midDayHistory)) ∧
        ∀ m, IsGreatest (halfDayJob.rollupBuckets (halfDayTable midDayHistory)) m →
          halfDayJob.RecomputeSuffices (hoursInto2024 72) (halfDayTable midDayHistory) m := by
  apply RollupJob.selfTerminating_iff halfDayJob (hoursInto2024 72) (halfDayTable midDayHistory)
  have hrun : exec halfDayJob.step KeyedTable.empty midDayHistory =
      some (halfDayTable midDayHistory) := rfl
  exact RollupJob.aligned_of_history rfl (by decide) hrun

/-- The first day is incomplete and stays so: every run finds the window again. -/
theorem repair_recurs :
    halfDayJob.rollupRows (halfDayTable midDayHistory) = [] ∧
      ¬halfDayJob.SelfTerminating (hoursInto2024 72) (halfDayTable midDayHistory) := by
  refine ⟨by decide +kernel, fun hends => ?_⟩
  have hrows : halfDayJob.rollupRows (halfDayJob.incrementalRecomputeTarget (hoursInto2024 72)
      (halfDayTable midDayHistory)) ≠ [] := by decide +kernel
  exact absurd (hends hrows).1 (by decide +kernel)

end HalfDays
end CryptoCollector.Collectors

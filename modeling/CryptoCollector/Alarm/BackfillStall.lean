import CryptoCollector.Collectors.Backfill
import CryptoCollector.Collectors.LeaseWorkers

/-!
# The backfill-stall reading

`backfill_stalled_active` counts the open chunks whose `updated_at` is older than
the threshold. Every statement on a chunk writes that column, the ones that move
the cursor or complete the chunk and the ones that do not. The lease of
`backfill_chunks` runs here with the column beside it, a clock of the database,
and a record of which statement touched which chunk when.
-/

namespace CryptoCollector.Alarm
open Foundations Collectors DateTime

variable {W : Type*} [DecidableEq W]

/-- A statement that wrote a chunk's row, and whether it advanced the cursor or
completed the chunk. -/
structure ChunkTouch where
  instant : ℤ
  id : ℤ
  progress : Bool
  deriving DecidableEq, Repr

/-- The chunks and their workers, the column `updated_at` by row id, the clock, and
the touches so far, newest first. -/
structure StampedChunks (W : Type*) where
  base : World W ChunkColumns
  updatedAt : ℤ → ℤ
  clock : ℤ
  touches : List ChunkTouch

def StampedChunks.empty : StampedChunks W := ⟨World.empty, fun _ => 0, 0, []⟩

/-- The row a step writes, and whether it is progress; a guarded write that matches
no row writes nothing. -/
def touchOf (s : World W ChunkColumns) : LeaseAction W ChunkColumns → Option (ℤ × Bool)
  | .insert id _ _ => some (id, false)
  | .claim _ id _ _ _ => some (id, false)
  | .write self op =>
    (s.holding self).bind fun c =>
      if ∃ row ∈ s.table, ownedBy self c.id row then some (c.id, op.isProgress) else none
  | .abandon _ => none

/-- The clock readings inside a statement are those of its own `now()`. -/
def readsNow (now : ℤ) : LeaseAction W ChunkColumns → Prop
  | .insert _ enqueuedAt _ => enqueuedAt = now
  | .claim _ _ at_ _ _ => at_ = now
  | .write _ (.heartbeat at_ _) => at_ = now
  | .write _ _ => True
  | .abandon _ => True

instance (now : ℤ) (a : LeaseAction W ChunkColumns) : Decidable (readsNow now a) := by
  unfold readsNow
  split <;> infer_instance

/-- One statement at the database clock `now`: what it does to the chunks, and
`updated_at = now()` on the row it writes. -/
def stampedStep (s : StampedChunks W) (a : ℤ × LeaseAction W ChunkColumns) :
    Option (StampedChunks W) :=
  if s.clock ≤ a.1 ∧ readsNow a.1 a.2 then
    (leaseStep (backfillLease W) s.base a.2).map fun base =>
      match touchOf s.base a.2 with
      | some (id, progress) =>
        ⟨base, Function.update s.updatedAt id a.1, a.1, ⟨a.1, id, progress⟩ :: s.touches⟩
      | none => ⟨base, s.updatedAt, a.1, s.touches⟩
  else
    none

/-- `status IN ('pending', 'claimed', 'running')`. -/
def openChunk (row : ChunkRow W) : Prop :=
  row.status = .pending ∨ row.status = .claimed ∨ row.status = .running

instance (row : ChunkRow W) : Decidable (openChunk row) := inferInstanceAs (Decidable (_ ∨ _))

/-- `backfill_stalled_active`, when its query succeeds. -/
def backfillStalledActive (s : StampedChunks W) (now stallSecs : ℤ) : Bool :=
  (s.base.table.countP fun row =>
    openChunk row ∧ s.updatedAt row.id < now - seconds stallSecs) > 0

/-- What the alarm stands for: open chunks exist, and none advanced its cursor or
completed in the last `stallSecs` seconds. -/
def BackfillStalled (s : StampedChunks W) (now stallSecs : ℤ) : Prop :=
  (∃ row ∈ s.base.table, openChunk row) ∧
    ∀ touch ∈ s.touches, touch.progress = true → touch.instant < now - seconds stallSecs

/-- A statement on the chunk advanced its cursor or completed it, from `start` on. -/
def AdvancedSince (s : StampedChunks W) (start id : ℤ) : Prop :=
  ∃ touch ∈ s.touches, touch.id = id ∧ touch.progress = true ∧ start ≤ touch.instant

/-- A claim, a heartbeat, a release, a failure or the insertion wrote the chunk from `start` on. -/
def IdlySince (s : StampedChunks W) (start id : ℤ) : Prop :=
  ∃ touch ∈ s.touches, touch.id = id ∧ touch.progress = false ∧ start ≤ touch.instant

/-- No statement wrote the chunk from `start` on. -/
def SilentSince (s : StampedChunks W) (start id : ℤ) : Prop :=
  ∀ touch ∈ s.touches, touch.id = id → touch.instant < start

/-- Nothing advanced, and statements without progress wrote each of the open chunks. -/
def IdleWritesHide (s : StampedChunks W) (start : ℤ) : Prop :=
  (∃ row ∈ s.base.table, openChunk row) ∧ (∀ id, ¬AdvancedSince s start id) ∧
    ∀ row ∈ s.base.table, openChunk row → IdlySince s start row.id

/-- An open chunk waits in silence while another one advances. -/
def WaitsBehind (s : StampedChunks W) (start : ℤ) : Prop :=
  ∃ row ∈ s.base.table, openChunk row ∧ SilentSince s start row.id ∧
    ∃ other, other ≠ row.id ∧ AdvancedSince s start other

def LastWrite (s : StampedChunks W) (id : ℤ) : ℤ → Prop :=
  IsGreatest {i | ∃ touch ∈ s.touches, touch.id = id ∧ touch.instant = i}

/-- The instant of the last statement that advanced or completed a chunk. -/
def LastProgress (s : StampedChunks W) : ℤ → Prop :=
  IsGreatest {i | ∃ touch ∈ s.touches, touch.progress = true ∧ touch.instant = i}

/-- The instant of the last statement on the open chunk that is longest without one. -/
def OldestWrite (s : StampedChunks W) : ℤ → Prop :=
  IsLeast {i | ∃ row ∈ s.base.table, openChunk row ∧ LastWrite s row.id i}

instance (s : StampedChunks W) (now stallSecs : ℤ) : Decidable (BackfillStalled s now stallSecs) :=
  inferInstanceAs (Decidable (_ ∧ _))

/-- `updated_at` is the instant of the latest statement that wrote the row. -/
structure StampInvariant (s : StampedChunks W) : Prop where
  bounded : ∀ touch ∈ s.touches, touch.instant ≤ s.clock
  stamped : ∀ row ∈ s.base.table,
    ∃ touch ∈ s.touches, touch.id = row.id ∧ touch.instant = s.updatedAt row.id
  latest : ∀ row ∈ s.base.table, ∀ touch ∈ s.touches, touch.id = row.id →
    touch.instant ≤ s.updatedAt row.id

omit [DecidableEq W] in
theorem StampInvariant.empty : StampInvariant (StampedChunks.empty (W := W)) :=
  ⟨by simp [StampedChunks.empty], by simp [StampedChunks.empty, World.empty],
    by simp [StampedChunks.empty, World.empty]⟩

section Steps

variable {s t : StampedChunks W} {base : World W ChunkColumns}

/-- Everything a timed statement can do: nothing on any row, or one row stamped. -/
theorem stampedStep_cases {a : ℤ × LeaseAction W ChunkColumns} (h : stampedStep s a = some t) :
    s.clock ≤ a.1 ∧ ∃ base, leaseStep (backfillLease W) s.base a.2 = some base ∧
      ((∃ id progress, touchOf s.base a.2 = some (id, progress) ∧
          t = ⟨base, Function.update s.updatedAt id a.1, a.1, ⟨a.1, id, progress⟩ :: s.touches⟩) ∨
        (touchOf s.base a.2 = none ∧ t = ⟨base, s.updatedAt, a.1, s.touches⟩)) := by
  unfold stampedStep at h
  split_ifs at h with hguard
  obtain ⟨base, hbase, rfl⟩ := Option.map_eq_some_iff.mp h
  refine ⟨hguard.1, base, hbase, ?_⟩
  cases htouch : touchOf s.base a.2 with
  | none => exact Or.inr ⟨rfl, rfl⟩
  | some touch => exact Or.inl ⟨touch.1, touch.2, rfl, rfl⟩

theorem row_of_leaseStep {world : World W ChunkColumns} {a : LeaseAction W ChunkColumns}
    (h : leaseStep (backfillLease W) world a = some base) {row : ChunkRow W}
    (hrow : row ∈ base.table) :
    (∃ old ∈ world.table, old.id = row.id) ∨ touchOf world a = some (row.id, false) := by
  rcases leaseStep_cases h with ⟨id, enqueuedAt, payload, rfl, -, rfl⟩ |
    ⟨self, id, now, leaseSecs, locked, old, rfl, -, -, -, -, rfl⟩ |
    ⟨self, op, c, f, rfl, -, hf, rfl⟩ | ⟨self, rfl, rfl⟩
  · rcases List.mem_cons.mp hrow with rfl | hold
    · exact Or.inr rfl
    · exact Or.inl ⟨row, hold, rfl⟩
  · rcases mem_claimStep.mp hrow with ⟨old, hold, -, rfl⟩ | ⟨hold, -⟩
    · exact Or.inl ⟨old, hold, rfl⟩
    · exact Or.inl ⟨row, hold, rfl⟩
  · rcases mem_writeStep.mp hrow with ⟨old, hold, -, rfl⟩ | ⟨hold, -⟩
    · exact Or.inl ⟨old, hold, (LeaseTable.effect_id hf old).symm⟩
    · exact Or.inl ⟨row, hold, rfl⟩
  · exact Or.inl ⟨row, hrow, rfl⟩

theorem StampInvariant.preserved {a : ℤ × LeaseAction W ChunkColumns} (hinv : StampInvariant s)
    (h : stampedStep s a = some t) : StampInvariant t := by
  obtain ⟨hclock, base, hbase, hcases⟩ := stampedStep_cases h
  have hbound : ∀ touch ∈ s.touches, touch.instant ≤ a.1 :=
    fun touch hmem => (hinv.bounded touch hmem).trans hclock
  rcases hcases with ⟨id, progress, htouch, rfl⟩ | ⟨htouch, rfl⟩
  · have hold : ∀ row ∈ base.table, row.id ≠ id → ∃ old ∈ s.base.table, old.id = row.id := by
      intro row hrow hid
      rcases row_of_leaseStep hbase hrow with hold | hnew
      · exact hold
      · rw [htouch, Option.some.injEq, Prod.mk.injEq] at hnew
        exact absurd hnew.1.symm hid
    refine ⟨List.forall_mem_cons.mpr ⟨le_rfl, hbound⟩, ?_, ?_⟩
    · intro row hrow
      by_cases hid : row.id = id
      · exact ⟨⟨a.1, id, progress⟩, List.mem_cons_self, hid.symm, by simp [hid]⟩
      · obtain ⟨old, hmem, hsame⟩ := hold row hrow hid
        obtain ⟨touch, htmem, htid, hinstant⟩ := hinv.stamped old hmem
        refine ⟨touch, List.mem_cons_of_mem _ htmem, htid.trans hsame, ?_⟩
        simp only [Function.update_of_ne hid, hinstant, hsame]
    · intro row hrow touch htmem htid
      by_cases hid : row.id = id
      · simp only [hid, Function.update_self]
        rcases List.mem_cons.mp htmem with rfl | htmem
        · exact le_rfl
        · exact hbound touch htmem
      · simp only [Function.update_of_ne hid]
        rcases List.mem_cons.mp htmem with rfl | htmem
        · exact absurd htid.symm hid
        · obtain ⟨old, hmem, hsame⟩ := hold row hrow hid
          rw [← hsame]
          exact hinv.latest old hmem touch htmem (htid.trans hsame.symm)
  · have hold : ∀ row ∈ base.table, ∃ old ∈ s.base.table, old.id = row.id := by
      intro row hrow
      rcases row_of_leaseStep hbase hrow with hold | hnew
      · exact hold
      · rw [htouch] at hnew
        cases hnew
    refine ⟨hbound, ?_, ?_⟩
    · intro row hrow
      obtain ⟨old, hmem, hid⟩ := hold row hrow
      rw [← hid]
      exact hinv.stamped old hmem
    · intro row hrow
      obtain ⟨old, hmem, hid⟩ := hold row hrow
      rw [← hid]
      exact hinv.latest old hmem

theorem StampInvariant.of_run {actions : List (ℤ × LeaseAction W ChunkColumns)}
    (hrun : exec stampedStep StampedChunks.empty actions = some s) : StampInvariant s :=
  exec_invariant (fun _ _ _ hinv h => hinv.preserved h) .empty hrun

omit [DecidableEq W] in
theorem StampInvariant.lastWrite (hinv : StampInvariant s) {row : ChunkRow W}
    (hrow : row ∈ s.base.table) : LastWrite s row.id (s.updatedAt row.id) := by
  refine ⟨hinv.stamped row hrow, ?_⟩
  rintro i ⟨touch, hmem, hid, rfl⟩
  exact hinv.latest row hrow touch hmem hid

omit [DecidableEq W] in
theorem StampInvariant.updatedAt_lt_iff (hinv : StampInvariant s) {row : ChunkRow W}
    (hrow : row ∈ s.base.table) (start : ℤ) :
    s.updatedAt row.id < start ↔ SilentSince s start row.id := by
  obtain ⟨⟨touch, hmem, hid, hinstant⟩, hlatest⟩ := hinv.lastWrite hrow
  constructor
  · intro hlt other hother hsame
    exact (hlatest ⟨other, hother, hsame, rfl⟩).trans_lt hlt
  · intro hsilent
    rw [← hinstant]
    exact hsilent touch hmem hid

omit [DecidableEq W] in
theorem StampInvariant.reading_iff (hinv : StampInvariant s) (now stallSecs : ℤ) :
    backfillStalledActive s now stallSecs = true ↔
      ∃ row ∈ s.base.table, openChunk row ∧ SilentSince s (now - seconds stallSecs) row.id := by
  simp only [backfillStalledActive, gt_iff_lt, decide_eq_true_eq, List.countP_pos_iff]
  constructor
  · rintro ⟨row, hrow, hopen, hold⟩
    exact ⟨row, hrow, hopen, (hinv.updatedAt_lt_iff hrow _).mp hold⟩
  · rintro ⟨row, hrow, hopen, hsilent⟩
    exact ⟨row, hrow, hopen, (hinv.updatedAt_lt_iff hrow _).mpr hsilent⟩

omit [DecidableEq W] in
theorem backfillStalled_iff (now stallSecs : ℤ) :
    BackfillStalled s now stallSecs ↔
      (∃ row ∈ s.base.table, openChunk row) ∧
        ∀ id, ¬AdvancedSince s (now - seconds stallSecs) id := by
  apply and_congr_right
  intro _
  constructor
  · rintro hnone id ⟨touch, hmem, -, hprogress, hle⟩
    exact absurd (hnone touch hmem hprogress) (not_lt.mpr hle)
  · intro hnone touch hmem hprogress
    by_contra hle
    exact hnone touch.id ⟨touch, hmem, rfl, hprogress, not_lt.mp hle⟩

omit [DecidableEq W] in
theorem idlySince_of_not_silent {start id : ℤ} (hidle : ¬AdvancedSince s start id)
    (hwritten : ¬SilentSince s start id) : IdlySince s start id := by
  unfold SilentSince at hwritten
  push Not at hwritten
  obtain ⟨touch, hmem, hid, hle⟩ := hwritten
  refine ⟨touch, hmem, hid, ?_, hle⟩
  cases hprogress : touch.progress with
  | false => rfl
  | true => exact absurd ⟨touch, hmem, hid, hprogress, hle⟩ hidle

omit [DecidableEq W] in
/-- The reading of a window is what it stands for when neither defect is met in it. -/
theorem StampInvariant.exact_iff (hinv : StampInvariant s) (now stallSecs : ℤ) :
    (backfillStalledActive s now stallSecs = true ↔ BackfillStalled s now stallSecs) ↔
      ¬IdleWritesHide s (now - seconds stallSecs) ∧ ¬WaitsBehind s (now - seconds stallSecs) := by
  rw [hinv.reading_iff, backfillStalled_iff]
  generalize now - seconds stallSecs = start
  constructor
  · intro hexact
    constructor
    · rintro ⟨hopen, hnone, hidly⟩
      obtain ⟨row, hrow, hopenRow, hsilent⟩ := hexact.mpr ⟨hopen, hnone⟩
      obtain ⟨touch, hmem, hid, -, hle⟩ := hidly row hrow hopenRow
      exact absurd (hsilent touch hmem hid) (not_lt.mpr hle)
    · rintro ⟨row, hrow, hopen, hsilent, other, -, hadvanced⟩
      exact (hexact.mp ⟨row, hrow, hopen, hsilent⟩).2 other hadvanced
  · rintro ⟨hshown, hserved⟩
    constructor
    · rintro ⟨row, hrow, hopen, hsilent⟩
      refine ⟨⟨row, hrow, hopen⟩, fun id hadvanced => hserved ?_⟩
      refine ⟨row, hrow, hopen, hsilent, id, ?_, hadvanced⟩
      rintro rfl
      obtain ⟨touch, hmem, hid, -, hle⟩ := hadvanced
      exact absurd (hsilent touch hmem hid) (not_lt.mpr hle)
    · rintro ⟨hopen, hnone⟩
      by_contra hloud
      push Not at hloud
      exact hshown ⟨hopen, hnone, fun row hrow hopenRow =>
        idlySince_of_not_silent (hnone row.id) (hloud row hrow hopenRow)⟩

omit [DecidableEq W] in
theorem StampInvariant.exists_oldestWrite (hinv : StampInvariant s)
    (hopen : ∃ row ∈ s.base.table, openChunk row) : ∃ w, OldestWrite s w := by
  let writes := (s.base.table.filter fun row => openChunk row).map fun row => s.updatedAt row.id
  have hmem : ∀ i, i ∈ writes ↔ ∃ row ∈ s.base.table, openChunk row ∧ LastWrite s row.id i := by
    intro i
    simp only [writes, List.mem_map, List.mem_filter, decide_eq_true_eq]
    constructor
    · rintro ⟨row, ⟨hrow, hopenRow⟩, rfl⟩
      exact ⟨row, hrow, hopenRow, hinv.lastWrite hrow⟩
    · rintro ⟨row, hrow, hopenRow, hlast⟩
      exact ⟨row, ⟨hrow, hopenRow⟩, (hinv.lastWrite hrow).unique hlast⟩
  obtain ⟨row, hrow, hopenRow⟩ := hopen
  have hne : writes ≠ [] :=
    List.ne_nil_of_mem ((hmem _).mpr ⟨row, hrow, hopenRow, hinv.lastWrite hrow⟩)
  obtain ⟨w, hw⟩ := Option.ne_none_iff_exists'.mp (mt List.min?_eq_none_iff.mp hne)
  obtain ⟨hwmem, hle⟩ := List.min?_eq_some_iff.mp hw
  exact ⟨w, (hmem w).mp hwmem, fun i hi => hle i ((hmem i).mpr hi)⟩

omit [DecidableEq W] in
/-- Some open chunk is silent from `start` on when the one longest without a statement is. -/
theorem OldestWrite.silent_iff {w : ℤ} (hw : OldestWrite s w) (hinv : StampInvariant s)
    (start : ℤ) :
    (∃ row ∈ s.base.table, openChunk row ∧ SilentSince s start row.id) ↔ w < start := by
  obtain ⟨⟨oldest, holdest, hopen, hlast⟩, hleast⟩ := hw
  constructor
  · rintro ⟨row, hrow, hopenRow, hsilent⟩
    have hle := hleast ⟨row, hrow, hopenRow, hinv.lastWrite hrow⟩
    exact hle.trans_lt ((hinv.updatedAt_lt_iff hrow start).mpr hsilent)
  · intro hlt
    refine ⟨oldest, holdest, hopen, (hinv.updatedAt_lt_iff holdest start).mp ?_⟩
    rwa [(hinv.lastWrite holdest).unique hlast]

omit [DecidableEq W] in
/-- Every reading is exact when the chunk longest without a statement had its last one at the
last progress there was. -/
theorem StampInvariant.always_exact_iff (hinv : StampInvariant s) :
    (∀ now stallSecs,
      backfillStalledActive s now stallSecs = true ↔ BackfillStalled s now stallSecs) ↔
        ((∃ row ∈ s.base.table, openChunk row) → ∃ p, LastProgress s p ∧ OldestWrite s p) := by
  have hstart : ∀ start : ℤ, start - seconds 0 = start := by
    intro start
    simp [seconds]
  constructor
  · intro hexact hopen
    obtain ⟨w, hw⟩ := hinv.exists_oldestWrite hopen
    -- at `w` no open chunk is silent, so there was progress since; just after `w` one is
    have hprogress : ¬BackfillStalled s w 0 := by
      rw [← hexact, hinv.reading_iff, hw.silent_iff hinv, hstart]
      exact lt_irrefl w
    have hstalled : BackfillStalled s (w + 1) 0 := by
      rw [← hexact, hinv.reading_iff, hw.silent_iff hinv, hstart]
      exact lt_add_one w
    have hbound : ∀ touch ∈ s.touches, touch.progress = true → touch.instant ≤ w := by
      intro touch hmem hadvance
      have hlt := hstalled.2 touch hmem hadvance
      rw [hstart] at hlt
      exact Int.lt_add_one_iff.mp hlt
    unfold BackfillStalled at hprogress
    push Not at hprogress
    obtain ⟨touch, hmem, hadvance, hge⟩ := hprogress hopen
    rw [hstart] at hge
    refine ⟨w, ⟨⟨touch, hmem, hadvance, le_antisymm (hbound touch hmem hadvance) hge⟩, ?_⟩, hw⟩
    rintro i ⟨other, hother, hadvance', rfl⟩
    exact hbound other hother hadvance'
  · intro hsame now stallSecs
    by_cases hopen : ∃ row ∈ s.base.table, openChunk row
    · obtain ⟨p, ⟨⟨touch, hmem, hadvance, hinstant⟩, hgreatest⟩, hw⟩ := hsame hopen
      rw [hinv.reading_iff, hw.silent_iff hinv, BackfillStalled, and_iff_right hopen]
      constructor
      · intro hlt other hother hadvance'
        exact (hgreatest ⟨other, hother, hadvance', rfl⟩).trans_lt hlt
      · intro hnone
        rw [← hinstant]
        exact hnone touch hmem hadvance
    · rw [hinv.reading_iff, BackfillStalled]
      constructor
      · rintro ⟨row, hrow, hopenRow, -⟩
        exact absurd ⟨row, hrow, hopenRow⟩ hopen
      · intro hstalled
        exact absurd hstalled.1 hopen

end Steps

/-- In every state a run reaches, the reading is the stall it stands for exactly when in its
window neither statements without progress hide one nor an open chunk waits behind another;
and it is at every time and threshold exactly when the open chunk longest without a statement
had its last one at the last progress there was. -/
theorem backfillStalledActive_exact_iff {s : StampedChunks W}
    {actions : List (ℤ × LeaseAction W ChunkColumns)}
    (hrun : exec stampedStep StampedChunks.empty actions = some s) :
    (∀ now stallSecs,
      (backfillStalledActive s now stallSecs = true ↔ BackfillStalled s now stallSecs) ↔
        ¬IdleWritesHide s (now - seconds stallSecs) ∧
          ¬WaitsBehind s (now - seconds stallSecs)) ∧
    ((∀ now stallSecs,
      backfillStalledActive s now stallSecs = true ↔ BackfillStalled s now stallSecs) ↔
        ((∃ row ∈ s.base.table, openChunk row) → ∃ p, LastProgress s p ∧ OldestWrite s p)) :=
  have hinv := StampInvariant.of_run hrun
  ⟨hinv.exact_iff, hinv.always_exact_iff⟩

/-- One chunk, claimed at once by a worker that heartbeats for fifty minutes. -/
def heartbeatingRun : List (ℤ × LeaseAction String ChunkColumns) :=
  [(0, .insert 1 0 (newChunk 1 "bitcoin" "candles" none none none)),
    (0, .claim "replica-a" 1 0 60 []),
    (seconds 3000, .write "replica-a" (.heartbeat (seconds 3000) 60))]

/-- Nothing progressed for five thousand seconds and the chunk is still open, but
its heartbeat hides it from the reading. -/
theorem backfillStalledActive_heartbeat :
    ∃ s, exec stampedStep StampedChunks.empty heartbeatingRun = some s ∧
      backfillStalledActive s (seconds 5000) 3600 = false ∧
      BackfillStalled s (seconds 5000) 3600 :=
  ⟨_, rfl, by decide, by decide⟩

/-- A chunk whose last statement moved its cursor. -/
def advancedRun : List (ℤ × LeaseAction String ChunkColumns) :=
  [(0, .insert 1 0 (newChunk 1 "bitcoin" "candles" none none none)),
    (0, .claim "replica-a" 1 0 60 []),
    (seconds 4000, .write "replica-a" (.advanceCursor 0))]

/-- A chunk that nobody has claimed yet, while a second one progresses. -/
def waitingRun : List (ℤ × LeaseAction String ChunkColumns) :=
  [(0, .insert 1 0 (newChunk 1 "bitcoin" "candles" none none none)),
    (0, .claim "replica-a" 1 0 60 []),
    (1, .insert 2 1 (newChunk 2 "ethereum" "candles" none none none)),
    (seconds 4000, .write "replica-a" (.advanceCursor 0))]

/-- An open chunk that has just advanced is read exactly at every time; one that waits beside
it is not. -/
theorem backfillStalledActive_waiting :
    (∃ s, exec stampedStep StampedChunks.empty advancedRun = some s ∧
      (∃ row ∈ s.base.table, openChunk row) ∧
      (∀ now stallSecs,
        backfillStalledActive s now stallSecs = true ↔ BackfillStalled s now stallSecs) ∧
      backfillStalledActive s (seconds 5000) 3600 = false ∧
      backfillStalledActive s (seconds 9000) 3600 = true) ∧
    ∃ s, exec stampedStep StampedChunks.empty waitingRun = some s ∧
      WaitsBehind s (seconds 5000 - seconds 3600) ∧
      ¬(backfillStalledActive s (seconds 5000) 3600 = true ↔
        BackfillStalled s (seconds 5000) 3600) := by
  constructor
  · obtain ⟨s, hrun, hopen, hclock, hstamped, htouch, hbusy, hstalled⟩ :
        ∃ s, exec stampedStep StampedChunks.empty advancedRun = some s ∧
          (∃ row ∈ s.base.table, openChunk row) ∧ s.clock = seconds 4000 ∧
          (∀ row ∈ s.base.table, s.updatedAt row.id = seconds 4000) ∧
          ⟨seconds 4000, 1, true⟩ ∈ s.touches ∧
          backfillStalledActive s (seconds 5000) 3600 = false ∧
          backfillStalledActive s (seconds 9000) 3600 = true :=
      ⟨_, rfl, by decide, rfl, by decide, by decide, by decide, by decide⟩
    have hinv := StampInvariant.of_run hrun
    refine ⟨s, hrun, hopen, ?_, hbusy, hstalled⟩
    apply (backfillStalledActive_exact_iff hrun).2.mpr
    rintro ⟨row, hrow, hopenRow⟩
    refine ⟨seconds 4000, ⟨⟨_, htouch, rfl, rfl⟩, ?_⟩, ?_⟩
    · rintro i ⟨touch, hmem, -, rfl⟩
      exact hclock ▸ hinv.bounded touch hmem
    · refine ⟨⟨row, hrow, hopenRow, hstamped row hrow ▸ hinv.lastWrite hrow⟩, ?_⟩
      rintro i ⟨chunk, hchunk, -, hlast⟩
      rw [hlast.unique (hinv.lastWrite hchunk), hstamped chunk hchunk]
  · have hrun : exec stampedStep StampedChunks.empty waitingRun = some _ := rfl
    refine ⟨_, hrun, ?_, by decide⟩
    refine ⟨newRow 2 1 (newChunk 2 "ethereum" "candles" none none none), by decide, by decide, ?_,
      1, by decide, ⟨seconds 4000, 1, true⟩, by decide, rfl, rfl, by decide⟩
    unfold SilentSince
    decide

end CryptoCollector.Alarm

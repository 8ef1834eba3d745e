import CryptoCollector.Collectors.BackfillWorkers

/-!
# Invariants of the backfill workers

What is claimed of a chunk and of the worker at it only has to be checked where
the chunk is concerned: when it is enqueued, when a page of it is processed, and
when one of its worker's writes reaches it. Leases, other workers and other
chunks are handled here once.
-/

namespace CryptoCollector.Collectors
open Foundations Models Providers DateTime

variable {W V : Type*} [Provider V]

theorem backfill_effect_range {op : LeaseWrite} {f : ChunkRow W → ChunkRow W}
    (hf : (backfillLease W).effect op = some f) (row : ChunkRow W) :
    (f row).payload.rangeStart = row.payload.rangeStart ∧
      (f row).payload.rangeEnd = row.payload.rangeEnd := by
  cases op <;> cases hf <;> exact ⟨rfl, rfl⟩

theorem backfill_effect_of_not_progress {op : LeaseWrite} {f : ChunkRow W → ChunkRow W}
    (hf : (backfillLease W).effect op = some f) (hop : op.isProgress = false)
    {row : ChunkRow W} (hclaimed : row.status = .claimed) :
    (f row).payload = row.payload ∧ (f row).status ≠ .done := by
  cases op with
  | heartbeat now leaseSecs =>
    cases hf
    exact ⟨rfl, by simp [heartbeatRow, hclaimed]⟩
  | advanceCursor cursor | complete => cases hop
  | release =>
    cases hf
    exact ⟨rfl, by simp [releaseRow]⟩
  | failOrRetry maxAttempts err =>
    cases hf
    refine ⟨rfl, ?_⟩
    simp only [failOrRetryRow]
    split_ifs <;> simp
  | failPermanent err =>
    cases hf
    exact ⟨rfl, by simp [failPermanentRow]⟩

/-- The record of the chunk `id` only grew, and no page of it was stored. -/
structure Extends (s t : BackfillState W) (id : ℤ) : Prop where
  upserted : ∀ candle ∈ s.upserted, candle ∈ t.upserted
  asked : ∀ ask ∈ s.asked id, ask ∈ t.asked id
  pages : t.pages id = s.pages id

/-- A property `R` of a chunk, and `F` of a chunk with the writes its owner has
still to issue, that hold through every step whose pages meet `C`. -/
structure KeptRules (chain : List V) (maxAttempts : ℤ) (C : ℤ → ChunkEnv V → Prop)
    (R : BackfillState W → ChunkRow W → Prop)
    (F : BackfillState W → ChunkRow W → List LeaseWrite → Prop) : Prop where
  enqueue : ∀ s id now jobId coinId dataset interval rangeStart rangeEnd, s.pages id = 0 →
    R s (newRow id now (newChunk jobId coinId dataset interval rangeStart rangeEnd))
  lease : ∀ s row row', row'.id = row.id → row'.payload = row.payload → row'.status = .claimed →
    R s row → R s row'
  extend : ∀ s t row, Extends s t row.id → R s row → R t row
  extendWrites : ∀ s t row writes, Extends s t row.id → F s row writes → F t row writes
  page : ∀ s row env, C row.id env → R s row →
    (∀ candle ∈ (processChunk env chain row.payload).upserted, candle ∈ s.upserted) →
    (∀ ask ∈ (processChunk env chain row.payload).asked, ask ∈ s.asked row.id) →
    F s row (finalizeWrites maxAttempts row.payload (processChunk env chain row.payload).outcome)
  write : ∀ s t row op rest f, row.status = .claimed → R s row → F s row (op :: rest) →
    (backfillLease W).effect op = some f → t.upserted = s.upserted → t.asked = s.asked →
    t.pages row.id = s.pages row.id + (if rest = [.release] then 1 else 0) →
    R t (f row) ∧ F t (f row) rest
  skip : ∀ s row op rest, F s row (op :: rest) → F s row rest

/-- `R` of every chunk, and `F` of every chunk still owned by the worker at it. -/
structure Kept (R : BackfillState W → ChunkRow W → Prop)
    (F : BackfillState W → ChunkRow W → List LeaseWrite → Prop) (s : BackfillState W) : Prop where
  lease : LeaseInvariant s.queue
  unseen : ∀ id, (∀ row ∈ s.queue.table, row.id ≠ id) → s.pages id = 0
  rows : ∀ row ∈ s.queue.table, R s row
  fetching : ∀ self c chunk, s.queue.holding self = some c → s.work self = some (.fetching chunk) →
    ∀ row ∈ s.queue.table, ownedBy self c.id row → row.payload = chunk
  finalizing : ∀ self c chunk writes, s.queue.holding self = some c →
    s.work self = some (.finalizing chunk writes) →
    ∀ row ∈ s.queue.table, ownedBy self c.id row → F s row writes

/-- Every page `self` processes of the chunk it holds meets `C`. -/
def PagesMeet (C : ℤ → ChunkEnv V → Prop) (s : BackfillState W) (a : BackfillAction W V) : Prop :=
  ∀ self env, a = .page self env → ∀ c, s.queue.holding self = some c → C c.id env

variable {chain : List V} {maxAttempts : ℤ} {C : ℤ → ChunkEnv V → Prop}
  {R : BackfillState W → ChunkRow W → Prop}
  {F : BackfillState W → ChunkRow W → List LeaseWrite → Prop} {s : BackfillState W}

theorem Kept.init : Kept R F (BackfillState.init : BackfillState W) where
  lease := LeaseInvariant.empty
  unseen := fun _ _ => rfl
  rows := by simp [BackfillState.init, World.empty]
  fetching := by simp [BackfillState.init, World.empty]
  finalizing := by simp [BackfillState.init, World.empty]

theorem Kept.enqueue (rules : KeptRules chain maxAttempts C R F) (hkept : Kept R F s)
    (id now jobId : ℤ) (coinId dataset : String) (interval : Option String)
    (rangeStart rangeEnd : Option ℤ) (hfresh : ∀ row ∈ s.queue.table, row.id ≠ id) :
    Kept R F { s with queue := { s.queue with
      table := newRow id now (newChunk jobId coinId dataset interval rangeStart rangeEnd) ::
        s.queue.table } } where
  lease := hkept.lease.insert now _ hfresh
  unseen := by
    intro id' hid'
    exact hkept.unseen id' fun row hrow => hid' row (List.mem_cons_of_mem _ hrow)
  rows := by
    intro row hrow
    rcases List.mem_cons.mp hrow with rfl | hold
    · exact rules.enqueue _ id now jobId coinId dataset interval rangeStart rangeEnd
        (hkept.unseen id hfresh)
    · exact rules.extend s _ row ⟨fun _ h => h, fun _ h => h, rfl⟩ (hkept.rows row hold)
  fetching := by
    intro self c chunk hc hwork row hrow howned
    rcases List.mem_cons.mp hrow with rfl | hold
    · cases howned.2
    · exact hkept.fetching self c chunk hc hwork row hold howned
  finalizing := by
    intro self c chunk writes hc hwork row hrow howned
    rcases List.mem_cons.mp hrow with rfl | hold
    · cases howned.2
    · exact rules.extendWrites s _ row writes ⟨fun _ h => h, fun _ h => h, rfl⟩
        (hkept.finalizing self c chunk writes hc hwork row hold howned)

variable [DecidableEq W]

theorem Kept.claim (rules : KeptRules chain maxAttempts C R F) (hkept : Kept R F s) {self : W}
    {row : ChunkRow W} (now leaseSecs : ℤ) (hrow : row ∈ s.queue.table) :
    Kept R F
      { s with
        queue := claimStep s.queue self row.id now leaseSecs row.attempts
        work := Function.update s.work self (some (.fetching row.payload)) } where
  lease := hkept.lease.claim now leaseSecs hrow
  unseen := fun id hnone => hkept.unseen id (key_ne_of_kept (fun _ => exists_row_claimStep) hnone)
  rows := by
    intro row' hrow'
    refine rules.extend s _ row' ⟨fun _ h => h, fun _ h => h, rfl⟩ ?_
    rcases mem_claimStep.mp hrow' with ⟨old, hold, -, rfl⟩ | ⟨hold, -⟩
    · exact rules.lease s old _ rfl rfl rfl (hkept.rows old hold)
    · exact hkept.rows row' hold
  fetching := by
    intro self' c chunk hc hwork row' hrow' howned
    by_cases hself : self' = self
    · subst hself
      obtain rfl : c = ⟨row.id, s.queue.claimCount row.id + 1, row.attempts⟩ := by
        simpa [claimStep] using hc.symm
      obtain rfl : row.payload = chunk := by simpa using hwork
      rcases mem_claimStep.mp hrow' with ⟨old, hold, hid, rfl⟩ | ⟨-, hne⟩
      · obtain rfl := hkept.lease.keyed.eq_of_mem hold hrow hid
        rfl
      · exact absurd howned.1 hne
    · obtain ⟨hholds, hold⟩ := owned_of_claimStep hself hc hrow' howned
      exact hkept.fetching self' c chunk hholds
        (by simpa [Function.update_of_ne hself] using hwork) row' hold howned
  finalizing := by
    intro self' c chunk writes hc hwork row' hrow' howned
    by_cases hself : self' = self
    · subst hself
      simp at hwork
    · obtain ⟨hholds, hold⟩ := owned_of_claimStep hself hc hrow' howned
      exact rules.extendWrites s _ row' writes ⟨fun _ h => h, fun _ h => h, rfl⟩
        (hkept.finalizing self' c chunk writes hholds
          (by simpa [Function.update_of_ne hself] using hwork) row' hold howned)

theorem Kept.heartbeat (rules : KeptRules chain maxAttempts C R F) (hkept : Kept R F s) {self : W}
    {chunk : ChunkColumns} {c : OpenClaim} (now leaseSecs : ℤ)
    (hwork : s.work self = some (.fetching chunk)) (hholds : s.queue.holding self = some c) :
    Kept R F { s with queue := writeStep s.queue self c none (heartbeatRow now leaseSecs) } := by
  have hf : (backfillLease W).effect (.heartbeat now leaseSecs) =
    some (heartbeatRow now leaseSecs) := rfl
  refine ⟨hkept.lease.write hholds hf, ?_, ?_, ?_, ?_⟩
  · intro id hnone
    exact hkept.unseen id (key_ne_of_kept (fun _ => exists_row_writeStep hf) hnone)
  · intro row' hrow'
    refine rules.extend s _ row' ⟨fun _ h => h, fun _ h => h, rfl⟩ ?_
    rcases mem_writeStep.mp hrow' with ⟨old, hold, howned, rfl⟩ | ⟨hold, -⟩
    · have hclaimed := (hkept.lease.held self c hholds old hold howned).1
      exact rules.lease s old _ rfl rfl hclaimed (hkept.rows old hold)
    · exact hkept.rows row' hold
  · intro self' c' chunk' hc' hwork' row' hrow' howned
    obtain ⟨hholds', row, hrow, howned', -, hcases⟩ := owned_of_writeStep hf hc' hrow' howned
    rcases hcases with ⟨-, rfl⟩ | rfl
    · exact hkept.fetching self' c' chunk' hholds' hwork' row hrow howned'
    · exact hkept.fetching self' c' chunk' hholds' hwork' row' hrow howned'
  · intro self' c' chunk' writes hc' hwork' row' hrow' howned
    obtain ⟨hholds', row, hrow, howned', -, hcases⟩ := owned_of_writeStep hf hc' hrow' howned
    refine rules.extendWrites s _ row' writes ⟨fun _ h => h, fun _ h => h, rfl⟩ ?_
    rcases hcases with ⟨hself, -⟩ | rfl
    · subst hself
      cases hwork.symm.trans hwork'
    · exact hkept.finalizing self' c' chunk' writes hholds' hwork' row' hrow howned'

theorem Kept.page (rules : KeptRules chain maxAttempts C R F) (hkept : Kept R F s) {self : W}
    {env : ChunkEnv V} {chunk : ChunkColumns} {c : OpenClaim}
    (hwork : s.work self = some (.fetching chunk)) (hholds : s.queue.holding self = some c)
    (hmeets : C c.id env) :
    Kept R F
      { s with
        work := Function.update s.work self
          (some (.finalizing chunk
            (finalizeWrites maxAttempts chunk (processChunk env chain chunk).outcome)))
        upserted := (processChunk env chain chunk).upserted ++ s.upserted
        asked := Function.update s.asked c.id
          ((processChunk env chain chunk).asked.toList ++ s.asked c.id) } := by
  set t : BackfillState W := { s with
    work := Function.update s.work self
      (some (.finalizing chunk
        (finalizeWrites maxAttempts chunk (processChunk env chain chunk).outcome)))
    upserted := (processChunk env chain chunk).upserted ++ s.upserted
    asked := Function.update s.asked c.id
      ((processChunk env chain chunk).asked.toList ++ s.asked c.id) } with ht
  have hextends : ∀ id, Extends s t id := by
    intro id
    refine ⟨fun candle hcandle => List.mem_append_right _ hcandle, fun ask hask => ?_, rfl⟩
    by_cases hid : id = c.id
    · subst hid
      simp [ht, hask]
    · simpa [ht, Function.update_of_ne hid] using hask
  refine ⟨hkept.lease, hkept.unseen, ?_, ?_, ?_⟩
  · intro row hrow
    exact rules.extend s t row (hextends row.id) (hkept.rows row hrow)
  · intro self' c' chunk' hc' hwork' row hrow howned
    by_cases hself : self' = self
    · subst hself
      simp [ht] at hwork'
    · exact hkept.fetching self' c' chunk' hc'
        (by simpa [ht, Function.update_of_ne hself] using hwork') row hrow howned
  · intro self' c' chunk' writes hc' hwork' row hrow howned
    by_cases hself : self' = self
    · subst hself
      obtain rfl : c = c' := Option.some.inj (hholds.symm.trans hc')
      have hpayload := hkept.fetching self' c chunk hholds hwork row hrow howned
      simp only [ht, Function.update_self, Option.some.injEq, BackfillWork.finalizing.injEq]
        at hwork'
      obtain ⟨rfl, rfl⟩ := hwork'
      subst hpayload
      refine rules.page t row env (howned.1 ▸ hmeets)
        (rules.extend s t row (hextends row.id) (hkept.rows row hrow)) ?_ ?_
      · intro candle hcandle
        exact List.mem_append_left _ hcandle
      · intro ask hask
        rw [howned.1]
        simp [ht, Option.mem_def.mp hask]
    · exact rules.extendWrites s t row writes (hextends row.id)
        (hkept.finalizing self' c' chunk' writes hc'
          (by simpa [ht, Function.update_of_ne hself] using hwork') row hrow howned)

omit [Provider V] in
theorem finalizeStep_pages_of_ne {self : W} {chunk : ChunkColumns} {rest : List LeaseWrite}
    {c : OpenClaim} {queue : World W ChunkColumns} {id : ℤ}
    (hne : ∀ row ∈ s.queue.table, ownedBy self c.id row → row.id ≠ id) :
    (finalizeStep s self chunk rest c queue).pages id = s.pages id := by
  simp only [finalizeStep]
  split_ifs with hcounts
  · obtain ⟨-, owned, howned, hown⟩ := hcounts
    exact Function.update_of_ne (fun hid => hne owned howned hown (hown.1.trans hid.symm)) _ _
  · rfl

/-- A chunk the write reaches moves by the write's own rule; any other is left
alone, with the record of its pages. -/
theorem Kept.write (rules : KeptRules chain maxAttempts C R F) (hkept : Kept R F s) {self : W}
    {chunk : ChunkColumns} {c : OpenClaim} {op : LeaseWrite} {rest : List LeaseWrite}
    {f : ChunkRow W → ChunkRow W} (hwork : s.work self = some (.finalizing chunk (op :: rest)))
    (hholds : s.queue.holding self = some c) (hf : (backfillLease W).effect op = some f) :
    Kept R F (finalizeStep s self chunk rest c (writeStep s.queue self c op.event f)) := by
  set t := finalizeStep s self chunk rest c (writeStep s.queue self c op.event f) with ht
  have hpages : ∀ row ∈ s.queue.table, ¬ownedBy self c.id row →
      t.pages row.id = s.pages row.id := by
    intro row hrow hnot
    refine finalizeStep_pages_of_ne fun owned howned hown hid => hnot ?_
    obtain rfl := hkept.lease.keyed.eq_of_mem howned hrow hid
    exact hown
  have hmoved : ∀ row ∈ s.queue.table, ownedBy self c.id row → R t (f row) ∧ F t (f row) rest := by
    intro row hrow howned
    refine rules.write s t row op rest f (hkept.lease.held self c hholds row hrow howned).1
      (hkept.rows row hrow) (hkept.finalizing self c chunk _ hholds hwork row hrow howned) hf
      rfl rfl ?_
    simp only [ht, finalizeStep]
    by_cases hrest : rest = [.release]
    · rw [if_pos ⟨hrest, row, hrow, howned⟩, if_pos hrest, howned.1]
      simp
    · rw [if_neg fun h => hrest h.1, if_neg hrest]
      rfl
  have hkeptRow : ∀ row ∈ s.queue.table, ¬ownedBy self c.id row → Extends s t row.id :=
    fun row hrow hnot => ⟨fun _ h => h, fun _ h => h, hpages row hrow hnot⟩
  refine ⟨hkept.lease.write hholds hf, ?_, ?_, ?_, ?_⟩
  · intro id hnone
    have hbefore := key_ne_of_kept (fun _ => exists_row_writeStep hf) hnone
    exact (finalizeStep_pages_of_ne fun row hrow _ => hbefore row hrow).trans
      (hkept.unseen id hbefore)
  · intro row' hrow'
    rcases mem_writeStep.mp hrow' with ⟨old, hold, howned, rfl⟩ | ⟨hold, hnot⟩
    · exact (hmoved old hold howned).1
    · exact rules.extend s t row' (hkeptRow row' hold hnot) (hkept.rows row' hold)
  · intro self' c' chunk' hc' hwork' row' hrow' howned
    obtain ⟨hholds', row, hrow, howned', -, hcases⟩ := owned_of_writeStep hf hc' hrow' howned
    by_cases hself : self' = self
    · subst hself
      simp only [ht, finalizeStep, Function.update_self] at hwork'
      split_ifs at hwork'
      simp at hwork'
    · rcases hcases with ⟨hself', -⟩ | rfl
      · exact absurd hself' hself
      · exact hkept.fetching self' c' chunk' hholds'
          (by simpa [ht, finalizeStep, Function.update_of_ne hself] using hwork') row' hrow howned'
  · intro self' c' chunk' writes hc' hwork' row' hrow' howned
    by_cases hself : self' = self
    · subst hself
      obtain ⟨hholds', -⟩ := owned_of_writeStep hf hc' hrow' howned
      obtain rfl : c = c' := Option.some.inj (hholds.symm.trans hholds')
      simp only [ht, finalizeStep, Function.update_self] at hwork'
      split_ifs at hwork' with hrest
      simp only [Option.some.injEq, BackfillWork.finalizing.injEq] at hwork'
      obtain ⟨rfl, rfl⟩ := hwork'
      rcases mem_writeStep.mp hrow' with ⟨old, hold, hown, rfl⟩ | ⟨-, hnot⟩
      · exact (hmoved old hold hown).2
      · exact absurd howned hnot
    · obtain ⟨hholds', row, hrow, howned', -, hcases⟩ := owned_of_writeStep hf hc' hrow' howned
      rcases hcases with ⟨hself', -⟩ | rfl
      · exact absurd hself' hself
      · have hnot : ¬ownedBy self c.id row' :=
          fun hown => hself (Option.some.inj (howned'.2.symm.trans hown.2))
        exact rules.extendWrites s t row' writes (hkeptRow row' hrow hnot)
          (hkept.finalizing self' c' chunk' writes hholds'
            (by simpa [ht, finalizeStep, Function.update_of_ne hself] using hwork') row' hrow
            howned')

theorem Kept.refuse (rules : KeptRules chain maxAttempts C R F) (hkept : Kept R F s) {self : W}
    {chunk : ChunkColumns} {op : LeaseWrite} {rest : List LeaseWrite}
    (hwork : s.work self = some (.finalizing chunk (op :: rest))) :
    Kept R F
      { s with work := Function.update s.work self (some (.finalizing chunk rest)) } where
  lease := hkept.lease
  unseen := hkept.unseen
  rows := fun row hrow =>
    rules.extend s _ row ⟨fun _ h => h, fun _ h => h, rfl⟩ (hkept.rows row hrow)
  fetching := by
    intro self' c chunk' hc hwork'
    by_cases hself : self' = self
    · subst hself
      simp at hwork'
    · exact hkept.fetching self' c chunk' hc
        (by simpa [Function.update_of_ne hself] using hwork')
  finalizing := by
    intro self' c chunk' writes hc hwork' row hrow howned
    refine rules.extendWrites s _ row writes ⟨fun _ h => h, fun _ h => h, rfl⟩ ?_
    by_cases hself : self' = self
    · subst hself
      simp only [Function.update_self, Option.some.injEq, BackfillWork.finalizing.injEq]
        at hwork'
      obtain ⟨rfl, rfl⟩ := hwork'
      exact rules.skip s row op _ (hkept.finalizing self' c chunk _ hc hwork row hrow howned)
    · exact hkept.finalizing self' c chunk' writes hc
        (by simpa [Function.update_of_ne hself] using hwork') row hrow howned

theorem Kept.abandon (rules : KeptRules chain maxAttempts C R F) (hkept : Kept R F s) (self : W) :
    Kept R F
      { s with
        queue := { s.queue with holding := Function.update s.queue.holding self none }
        work := Function.update s.work self none } where
  lease := hkept.lease.abandon self
  unseen := hkept.unseen
  rows := fun row hrow =>
    rules.extend s _ row ⟨fun _ h => h, fun _ h => h, rfl⟩ (hkept.rows row hrow)
  fetching := by
    intro self' c chunk hc hwork
    by_cases hself : self' = self
    · subst hself
      simp at hc
    · exact hkept.fetching self' c chunk (by simpa [Function.update_of_ne hself] using hc)
        (by simpa [Function.update_of_ne hself] using hwork)
  finalizing := by
    intro self' c chunk writes hc hwork row hrow howned
    refine rules.extendWrites s _ row writes ⟨fun _ h => h, fun _ h => h, rfl⟩ ?_
    by_cases hself : self' = self
    · subst hself
      simp at hc
    · exact hkept.finalizing self' c chunk writes
        (by simpa [Function.update_of_ne hself] using hc)
        (by simpa [Function.update_of_ne hself] using hwork) row hrow howned

theorem Kept.preserved (rules : KeptRules chain maxAttempts C R F) (hkept : Kept R F s)
    {a : BackfillAction W V} {t : BackfillState W} (hmeets : PagesMeet C s a)
    (h : backfillStep chain maxAttempts s a = some t) : Kept R F t := by
  cases backfillStep_sound hkept.lease.keyed h with
  | enqueue id now jobId coinId dataset interval rangeStart rangeEnd hfresh =>
    exact hkept.enqueue rules id now jobId coinId dataset interval rangeStart rangeEnd hfresh
  | claim self now leaseSecs locked row hrow hidle hclaimable =>
    exact hkept.claim rules now leaseSecs hrow
  | heartbeat self now leaseSecs chunk c hwork hholds =>
    exact hkept.heartbeat rules now leaseSecs hwork hholds
  | page self env chunk c hwork hholds =>
    exact hkept.page rules hwork hholds (hmeets self env rfl c hholds)
  | finalize self chunk op rest c f hwork hholds hf => exact hkept.write rules hwork hholds hf
  | refuse self chunk op rest hwork hrest => exact hkept.refuse rules hwork
  | abandon self _ _ => exact hkept.abandon rules self

theorem Kept.of_run (rules : KeptRules chain maxAttempts C R F) {as : List (BackfillAction W V)}
    (hmeets : StepsMeet (backfillStep chain maxAttempts) (PagesMeet C) BackfillState.init as)
    (hrun : exec (backfillStep chain maxAttempts) BackfillState.init as = some s) : Kept R F s :=
  exec_invariant_of_steps (fun _ _ _ hkept hmeet h => hkept.preserved rules hmeet h) Kept.init
    hmeets hrun

end CryptoCollector.Collectors

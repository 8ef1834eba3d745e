import CryptoCollector.Collectors.LeaseWorkers

/-!
# Lease fencing

The guard `claimed_by = $self` admits a write only under the row's most recent
claim: a replica that still owns a row has not been superseded, because a claim
renames the owner and no other statement names a new one. A terminal status is
final, since only a claim could leave it and a claim does not match it.
-/

namespace CryptoCollector.Collectors
open Foundations

variable {W P : Type*}

/-- What a replica that still owns the row it claimed knows of it. -/
structure LeaseInvariant (s : World W P) : Prop where
  keyed : s.KeyedById
  held : ∀ self c, s.holding self = some c → ∀ row ∈ s.table, ownedBy self c.id row →
    row.status = .claimed ∧ c.number = s.claimCount c.id ∧ row.attempts = c.attemptsBefore + 1

theorem LeaseInvariant.empty : LeaseInvariant (World.empty : World W P) where
  keyed := List.nodup_nil
  held := by simp [World.empty]

theorem LeaseInvariant.insert {s : World W P} (hinv : LeaseInvariant s) {id : ℤ}
    (enqueuedAt : ℤ) (payload : P) (hfresh : ∀ row ∈ s.table, row.id ≠ id) :
    LeaseInvariant { s with table := newRow id enqueuedAt payload :: s.table } where
  keyed := hinv.keyed.cons hfresh
  held := by
    intro self c hc row hrow howned
    rcases List.mem_cons.mp hrow with rfl | hold
    · cases howned.2
    · exact hinv.held self c hc row hold howned

/-- A status no statement leaves. -/
def Status.terminal (status : Status) : Prop := status = .done ∨ status = .failed

theorem not_claimable_of_terminal {row : LeaseRow W P} (h : row.status.terminal) (now : ℤ) :
    ¬claimable now row := by
  unfold claimable
  rcases h with h | h <;> simp [h]

variable [DecidableEq W]

@[simp] theorem claimCount_claimStep_self (s : World W P) (self : W)
    (id now leaseSecs attemptsBefore : ℤ) :
    (claimStep s self id now leaseSecs attemptsBefore).claimCount id = s.claimCount id + 1 := by
  simp [claimStep, World.claimCount]

theorem claimCount_claimStep_of_ne (s : World W P) (self : W)
    {id id' now leaseSecs attemptsBefore : ℤ} (h : id' ≠ id) :
    (claimStep s self id now leaseSecs attemptsBefore).claimCount id' = s.claimCount id' := by
  simp [claimStep, World.claimCount, Function.update_of_ne h]

theorem history_writeStep (s : World W P) (self : W) (c : OpenClaim) (event : Option RowEvent)
    (f : LeaseRow W P → LeaseRow W P) :
    (writeStep s self c event f).history =
      if ∃ row ∈ s.table, ownedBy self c.id row then
        Function.update s.history c.id (event.toList ++ s.history c.id)
      else
        s.history := rfl

@[simp] theorem claimCount_writeStep (s : World W P) (self : W) (c : OpenClaim) (op : LeaseWrite)
    (f : LeaseRow W P → LeaseRow W P) (id : ℤ) :
    (writeStep s self c op.event f).claimCount id = s.claimCount id := by
  unfold World.claimCount
  rw [history_writeStep]
  split_ifs
  · by_cases hid : id = c.id
    · subst hid
      cases op <;> simp [LeaseWrite.event]
    · simp [Function.update_of_ne hid]
  · rfl

theorem owned_of_writeStep {T : LeaseTable W P} {s : World W P} {self self' : W}
    {c c' : OpenClaim} {op : LeaseWrite} {f : LeaseRow W P → LeaseRow W P}
    (hf : T.effect op = some f)
    (hc' : (writeStep s self c op.event f).holding self' = some c') {row' : LeaseRow W P}
    (hrow' : row' ∈ (writeStep s self c op.event f).table) (howned : ownedBy self' c'.id row') :
    s.holding self' = some c' ∧ ∃ row ∈ s.table, ownedBy self' c'.id row ∧ row.id = row'.id ∧
      ((self' = self ∧ row' = f row) ∨ row' = row) := by
  refine ⟨holding_of_writeStep hc', ?_⟩
  rcases mem_writeStep.mp hrow' with ⟨old, hold, holdOwned, rfl⟩ | ⟨hold, -⟩
  · have hid := LeaseTable.effect_id hf old
    have howner : old.claimedBy = some self' := by
      rcases LeaseTable.effect_claimedBy hf old with hsame | hnone
      · exact hsame.symm.trans howned.2
      · exact absurd (hnone.symm.trans howned.2) (by simp)
    have hself : self' = self := Option.some.inj (howner.symm.trans holdOwned.2)
    exact ⟨old, hold, ⟨hid.symm.trans howned.1, howner⟩, hid.symm, Or.inl ⟨hself, rfl⟩⟩
  · exact ⟨row', hold, howned, rfl, Or.inr rfl⟩

theorem owned_of_claimStep {s : World W P} {self self' : W}
    {id now leaseSecs attempts : ℤ} {c' : OpenClaim} (hself : self' ≠ self)
    (hc' : (claimStep s self id now leaseSecs attempts).holding self' = some c')
    {row' : LeaseRow W P} (hrow' : row' ∈ (claimStep s self id now leaseSecs attempts).table)
    (howned : ownedBy self' c'.id row') : s.holding self' = some c' ∧ row' ∈ s.table := by
  refine ⟨by simpa [claimStep, Function.update_of_ne hself] using hc', ?_⟩
  rcases mem_claimStep.mp hrow' with ⟨old, -, -, rfl⟩ | ⟨hold, -⟩
  · exact absurd (Option.some.inj howned.2).symm hself
  · exact hold

theorem LeaseInvariant.claim {s : World W P} (hinv : LeaseInvariant s) {self : W}
    {row : LeaseRow W P} (now leaseSecs : ℤ) (hrow : row ∈ s.table) :
    LeaseInvariant (claimStep s self row.id now leaseSecs row.attempts) where
  keyed := Keyed.updateWhere (fun _ _ => rfl) hinv.keyed
  held := by
    intro self' c hc row' hrow' howned
    by_cases hself : self' = self
    · subst hself
      obtain rfl : c = ⟨row.id, s.claimCount row.id + 1, row.attempts⟩ := by
        simpa [claimStep] using hc.symm
      rcases mem_claimStep.mp hrow' with ⟨old, hold, hid, rfl⟩ | ⟨-, hid⟩
      · obtain rfl := hinv.keyed.eq_of_mem hold hrow hid
        exact ⟨rfl, by simp, rfl⟩
      · exact absurd howned.1 hid
    · have hc' : s.holding self' = some c := by
        simpa [claimStep, Function.update_of_ne hself] using hc
      rcases mem_claimStep.mp hrow' with ⟨old, -, -, rfl⟩ | ⟨hold, hid⟩
      · exact absurd (Option.some.inj howned.2).symm hself
      · rw [claimCount_claimStep_of_ne s self (howned.1 ▸ hid)]
        exact hinv.held self' c hc' row' hold howned

theorem LeaseInvariant.write {T : LeaseTable W P} {s : World W P} (hinv : LeaseInvariant s)
    {self : W} {c : OpenClaim} {op : LeaseWrite} {f : LeaseRow W P → LeaseRow W P}
    (hc : s.holding self = some c) (hf : T.effect op = some f) :
    LeaseInvariant (writeStep s self c op.event f) where
  keyed := Keyed.updateWhere (fun row _ => LeaseTable.effect_id hf row) hinv.keyed
  held := by
    intro self' c' hc' row' hrow' howned
    have hholds := holding_of_writeStep hc'
    rw [claimCount_writeStep]
    by_cases hself : self' = self
    · subst hself
      have hevent : op.event = none := by
        cases hop : op.event with
        | none => rfl
        | some event => simp [writeStep, hop] at hc'
      obtain rfl : c = c' := Option.some.inj (hc.symm.trans hholds)
      rcases mem_writeStep.mp hrow' with ⟨old, hold, howns, rfl⟩ | ⟨hold, hnot⟩
      · have hframe := LeaseTable.effect_of_event_none hf hevent old
        rw [hframe.1, hframe.2]
        exact hinv.held self' c hc old hold howns
      · exact absurd howned hnot
    · rcases mem_writeStep.mp hrow' with ⟨old, hold, howns, rfl⟩ | ⟨hold, -⟩
      · rcases LeaseTable.effect_claimedBy hf old with hsame | hnone
        · have howner := hsame.symm.trans howned.2
          rw [howns.2] at howner
          exact absurd (Option.some.inj howner).symm hself
        · exact absurd (hnone.symm.trans howned.2) (by simp)
      · exact hinv.held self' c' hholds row' hold howned

theorem LeaseInvariant.abandon {s : World W P} (hinv : LeaseInvariant s) (self : W) :
    LeaseInvariant { s with holding := Function.update s.holding self none } where
  keyed := hinv.keyed
  held := by
    intro self' c hc
    by_cases hself : self' = self
    · subst hself
      simp at hc
    · exact hinv.held self' c (by simpa [Function.update_of_ne hself] using hc)

theorem LeaseInvariant.preserved {T : LeaseTable W P} {s t : World W P} {a : LeaseAction W P}
    (hinv : LeaseInvariant s) (h : leaseStep T s a = some t) : LeaseInvariant t := by
  rcases leaseStep_cases h with ⟨id, enqueuedAt, payload, -, hfresh, rfl⟩ |
    ⟨self, id, now, leaseSecs, locked, row, -, -, -, hrow, rfl, rfl⟩ |
    ⟨self, op, c, f, -, hc, hf, rfl⟩ | ⟨self, -, rfl⟩
  · exact hinv.insert enqueuedAt payload hfresh
  · exact hinv.claim now leaseSecs hrow
  · exact hinv.write hc hf
  · exact hinv.abandon self

theorem LeaseInvariant.of_run {T : LeaseTable W P} {s : World W P} {as : List (LeaseAction W P)}
    (hrun : exec (leaseStep T) World.empty as = some s) : LeaseInvariant s :=
  exec_invariant (fun _ _ _ hinv h => hinv.preserved h) LeaseInvariant.empty hrun

/-- One step leaves a finished row finished, with no further claim. -/
theorem terminal_preserved {T : LeaseTable W P} {s t : World W P} {a : LeaseAction W P}
    (hinv : LeaseInvariant s) {row : LeaseRow W P} (hrow : row ∈ s.table)
    (hterminal : row.status.terminal) (h : leaseStep T s a = some t) :
    row ∈ t.table ∧ t.claimCount row.id = s.claimCount row.id := by
  rcases leaseStep_cases h with ⟨id, enqueuedAt, payload, -, hfresh, rfl⟩ |
    ⟨self, id, now, leaseSecs, locked, taken, -, hcandidate, -, htaken, rfl, rfl⟩ |
    ⟨self, op, c, f, -, hc, hf, rfl⟩ | ⟨self, -, rfl⟩
  · exact ⟨List.mem_cons_of_mem _ hrow, rfl⟩
  · have hne : row.id ≠ taken.id := by
      intro heq
      obtain rfl := hinv.keyed.eq_of_mem hrow htaken heq
      obtain ⟨other, hother, hid, hclaimable, -⟩ := hcandidate
      obtain rfl := hinv.keyed.eq_of_mem hother htaken hid
      exact not_claimable_of_terminal hterminal now hclaimable
    exact ⟨mem_claimStep.mpr (Or.inr ⟨hrow, hne⟩), claimCount_claimStep_of_ne s self hne⟩
  · have hnot : ¬ownedBy self c.id row := by
      intro howned
      have hclaimed := (hinv.held self c hc row hrow howned).1
      rcases hterminal with h | h <;> rw [hclaimed] at h <;> cases h
    exact ⟨mem_writeStep.mpr (Or.inr ⟨hrow, hnot⟩), claimCount_writeStep s self c op f row.id⟩
  · exact ⟨hrow, rfl⟩

/-- Every enabled write comes from a holder, changes only rows its guard matches,
and the guard matches a row only under that row's most recent claim. -/
def WritesFenced (T : LeaseTable W P) (s : World W P) : Prop :=
  ∀ self op t, leaseStep T s (.write self op) = some t →
    ∃ c, s.holding self = some c ∧
      (∀ row ∈ s.table, ¬ownedBy self c.id row → row ∈ t.table) ∧
      (∀ row ∈ s.table, ownedBy self c.id row → c.number = s.claimCount row.id)

/-- A finished row is there unchanged after any further run, never claimed again. -/
def OutcomesFinal (T : LeaseTable W P) (s : World W P) : Prop :=
  ∀ more t, exec (leaseStep T) s more = some t → ∀ row ∈ s.table, row.status.terminal →
    row ∈ t.table ∧ t.claimCount row.id = s.claimCount row.id

theorem LeaseInvariant.writesFenced {T : LeaseTable W P} {s : World W P}
    (hinv : LeaseInvariant s) : WritesFenced T s := by
  intro self op t h
  obtain ⟨c, f, hc, hf, rfl⟩ := leaseStep_write h
  refine ⟨c, hc, ?_, ?_⟩
  · intro row hrow hnot
    exact mem_writeStep.mpr (Or.inr ⟨hrow, hnot⟩)
  · intro row hrow howned
    rw [howned.1]
    exact (hinv.held self c hc row hrow howned).2.1

theorem LeaseInvariant.outcomesFinal {T : LeaseTable W P} {s : World W P}
    (hinv : LeaseInvariant s) : OutcomesFinal T s := by
  intro more t hrun row hrow hterminal
  have hkept : LeaseInvariant t ∧ row ∈ t.table ∧ t.claimCount row.id = s.claimCount row.id := by
    refine exec_invariant (I := fun u => LeaseInvariant u ∧ row ∈ u.table ∧
      u.claimCount row.id = s.claimCount row.id) ?_ ⟨hinv, hrow, rfl⟩ hrun
    rintro u a v ⟨hu, hmem, hcount⟩ hstep
    have hnext := terminal_preserved hu hmem hterminal hstep
    exact ⟨hu.preserved hstep, hnext.1, hnext.2.trans hcount⟩
  exact hkept.2

/-- Lease fencing of both queues, in every state any run of workers reaches. -/
theorem lease_fencing {chunks : World W ChunkColumns} {items : World W QueueColumns}
    {chunkRun : List (LeaseAction W ChunkColumns)} {itemRun : List (LeaseAction W QueueColumns)}
    (hchunks : exec (leaseStep (backfillLease W)) World.empty chunkRun = some chunks)
    (hitems : exec (leaseStep (queueLease W)) World.empty itemRun = some items) :
    (WritesFenced (backfillLease W) chunks ∧ OutcomesFinal (backfillLease W) chunks) ∧
      (WritesFenced (queueLease W) items ∧ OutcomesFinal (queueLease W) items) := by
  have hchunkInv := LeaseInvariant.of_run hchunks
  have hitemInv := LeaseInvariant.of_run hitems
  exact ⟨⟨hchunkInv.writesFenced, hchunkInv.outcomesFinal⟩,
    hitemInv.writesFenced, hitemInv.outcomesFinal⟩

/-- Replica 7 stalls, replica 8 takes the expired chunk over, and 7 writes late. -/
def lateCursorRun : List (LeaseAction ℕ ChunkColumns) :=
  [.insert 1 0 ⟨1, "bitcoin", "candles", some "1d", some 0, some 864000000000000, none⟩,
    .claim 7 1 0 10 [], .claim 8 1 11000000000 10 [], .write 7 (.advanceCursor 5000),
    .write 8 (.advanceCursor 9000), .write 7 .release]

/-- Replica 7 completes an item, and keeps it in `claimed_by`. -/
def completedItemRun : List (LeaseAction ℕ QueueColumns) :=
  [.insert 1 0 ⟨"coin", "bitcoin", "candles"⟩, .claim 7 1 0 10 [], .write 7 .complete]

theorem lateCursorRun_enabled :
    (exec (leaseStep (backfillLease ℕ)) World.empty lateCursorRun).isSome := by decide

theorem completedItemRun_enabled :
    (exec (leaseStep (queueLease ℕ)) World.empty completedItemRun).isSome := by decide

/-- The late cursor of replica 7 does not reach the chunk. -/
example : (((exec (leaseStep (backfillLease ℕ)) World.empty lateCursorRun).get
    lateCursorRun_enabled).table.map fun row => row.payload.cursor) = [some 9000] := by decide

theorem lease_fencing_late_writes :
    WritesFenced (backfillLease ℕ)
        ((exec (leaseStep (backfillLease ℕ)) World.empty lateCursorRun).get
          lateCursorRun_enabled) ∧
      OutcomesFinal (queueLease ℕ)
        ((exec (leaseStep (queueLease ℕ)) World.empty completedItemRun).get
          completedItemRun_enabled) :=
  have h := lease_fencing (Option.some_get lateCursorRun_enabled).symm
    (Option.some_get completedItemRun_enabled).symm
  ⟨h.1.1, h.2.2⟩

end CryptoCollector.Collectors

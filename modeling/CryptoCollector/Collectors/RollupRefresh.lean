import CryptoCollector.Collectors.RetryBudget

/-!
# Refreshes and the rollup item

A candle refresh commits its candles and then enqueues a `rollup` item of the
coin; a worker that claims the item reads the candles and rolls them up. The
unique index absorbs the enqueue while a live item exists, and an item being
worked on is live: a refresh that commits after the run has begun to read leaves
nothing behind. What follows says exactly when that does not happen.
-/

namespace CryptoCollector.Collectors
open Foundations

/-- The statuses `collection_queue_dedup_idx` counts as live. -/
def Status.live (status : Status) : Prop :=
  status = .pending ∨ status = .claimed ∨ status = .running

instance (status : Status) : Decidable status.live := inferInstanceAs (Decidable (_ ∨ _))

def rollupItem (coin : String) : QueueColumns := ⟨"coin", coin, "rollup"⟩

/-- The queue, with how far the rollup of one coin has come. Refreshes are
numbered in commit order; `begun` says of a row id that the run of its newest
claim has begun to read, `readUpTo` is the last refresh some run has read. -/
structure RefreshState (W : Type*) where
  queue : World W QueueColumns
  commits : ℕ
  awaiting : List ℕ
  enqueued : List ℕ
  started : W → Bool
  begun : ℤ → Bool
  readUpTo : ℕ

def RefreshState.init {W : Type*} : RefreshState W :=
  ⟨World.empty, 0, [], [], fun _ => false, fun _ => false, 0⟩

/-- A step of the refresh workers, of the queue workers, or of anyone else who
enqueues an item, the periodic backstop included. -/
inductive RefreshAction (W : Type*) where
  | commitCandles
  | enqueueRefresh (refresh : ℕ) (id now : ℤ)
  | enqueueOther (columns : QueueColumns) (id now : ℤ)
  | claim (self : W) (id now leaseSecs : ℤ) (locked : List ℤ)
  | startRun (self : W)
  | write (self : W) (op : LeaseWrite)
  | abandon (self : W)
  deriving DecidableEq, Repr

variable {W : Type*}

/-- A live rollup item of the coin whose run has not begun to read. -/
def FreshItem (coin : String) (s : RefreshState W) : Prop :=
  ∃ row ∈ s.queue.table, row.payload = rollupItem coin ∧
    (row.status = .pending ∨ row.status = .claimed ∧ s.begun row.id = false)

instance (coin : String) (s : RefreshState W) : Decidable (FreshItem coin s) :=
  inferInstanceAs (Decidable (∃ row ∈ s.queue.table, _))

/-- Every refresh whose enqueue has returned was read by a later run, or there is
an item left for it. -/
def NoLostRefresh (coin : String) (s : RefreshState W) : Prop :=
  ∀ refresh ∈ s.enqueued, refresh ≤ s.readUpTo ∨ FreshItem coin s

instance (coin : String) (s : RefreshState W) : Decidable (NoLostRefresh coin s) :=
  inferInstanceAs (Decidable (∀ refresh ∈ s.enqueued, _))

/-- The unique index: one live row for each item. -/
def Deduplicated (s : World W QueueColumns) : Prop :=
  ∀ row ∈ s.table, ∀ row' ∈ s.table, row.status.live → row'.status.live →
    row.payload = row'.payload → row.id = row'.id

/-- Every row of `t` was there before under its id and item, and was live if it
is now. -/
def RowsFrom (s t : World W QueueColumns) : Prop :=
  ∀ row' ∈ t.table, ∃ row ∈ s.table, row.id = row'.id ∧ row.payload = row'.payload ∧
    (row'.status.live → row.status.live)

theorem Deduplicated.of_rowsFrom {s t : World W QueueColumns} (h : Deduplicated s)
    (hfrom : RowsFrom s t) : Deduplicated t := by
  intro a ha b hb hla hlb hpayload
  obtain ⟨a', ha', haid, hapay, halive⟩ := hfrom a ha
  obtain ⟨b', hb', hbid, hbpay, hblive⟩ := hfrom b hb
  rw [← haid, ← hbid]
  exact h a' ha' b' hb' (halive hla) (hblive hlb) (by rw [hapay, hbpay, hpayload])

theorem live_of_claimable {row : QueueRow W} {now : ℤ} (h : claimable now row) :
    row.status.live := by
  rcases h with h | ⟨h | h, -⟩
  · exact Or.inl h
  · exact Or.inr (Or.inl h)
  · exact Or.inr (Or.inr h)

theorem queue_effect_payload {op : LeaseWrite} {f : QueueRow W → QueueRow W}
    (h : (queueLease W).effect op = some f) (row : QueueRow W) :
    (f row).payload = row.payload := by
  cases op with
  | advanceCursor cursor => cases h
  | heartbeat now leaseSecs | complete | release | failOrRetry maxAttempts err
    | failPermanent err =>
    cases h
    rfl

/-- What the queue, the runs and the refresh numbers keep to. -/
structure RefreshInvariant (s : RefreshState W) : Prop where
  lease : LeaseInvariant s.queue
  budget : BudgetInvariant s.queue
  dedup : Deduplicated s.queue
  issued : ∀ refresh, refresh ∈ s.awaiting ∨ refresh ∈ s.enqueued → refresh ≤ s.commits
  read : s.readUpTo ≤ s.commits
  begun : ∀ self c, s.queue.holding self = some c → s.started self = true →
    ∀ row ∈ s.queue.table, ownedBy self c.id row → s.begun row.id = true

theorem RefreshInvariant.init : RefreshInvariant (RefreshState.init : RefreshState W) where
  lease := LeaseInvariant.empty
  budget := BudgetInvariant.empty
  dedup := by simp [Deduplicated, RefreshState.init, World.empty]
  issued := by simp [RefreshState.init]
  read := le_rfl
  begun := by simp [RefreshState.init, World.empty]

/-- A claim that is open after the step was open before it, on the same row. -/
def OwnersFrom (s t : World W QueueColumns) : Prop :=
  ∀ self c, t.holding self = some c → ∀ row' ∈ t.table, ownedBy self c.id row' →
    s.holding self = some c ∧ ∃ row ∈ s.table, ownedBy self c.id row

theorem RefreshInvariant.begun_of_ownersFrom {s : RefreshState W} (hinv : RefreshInvariant s)
    {queue : World W QueueColumns} (hfrom : OwnersFrom s.queue queue) :
    ∀ self c, queue.holding self = some c → s.started self = true →
      ∀ row ∈ queue.table, ownedBy self c.id row → s.begun row.id = true := by
  intro self c hc hstarted row hrow howned
  obtain ⟨hholds, old, hold, holdOwned⟩ := hfrom self c hc row hrow howned
  rw [howned.1, ← holdOwned.1]
  exact hinv.begun self c hholds hstarted old hold holdOwned

theorem RefreshInvariant.issued_enqueue {s : RefreshState W} (hinv : RefreshInvariant s)
    {refresh : ℕ} (hawaiting : refresh ∈ s.awaiting) :
    ∀ other, other ∈ s.awaiting.erase refresh ∨ other ∈ refresh :: s.enqueued →
      other ≤ s.commits := by
  intro other hother
  rcases hother with hleft | henqueued
  · exact hinv.issued other (Or.inl (List.mem_of_mem_erase hleft))
  · rcases List.mem_cons.mp henqueued with rfl | hold
    · exact hinv.issued other (Or.inl hawaiting)
    · exact hinv.issued other (Or.inr hold)

theorem FreshItem.mono {coin : String} {s t : RefreshState W} (hfresh : FreshItem coin s)
    (htable : ∀ row ∈ s.queue.table, row ∈ t.queue.table) (hbegun : t.begun = s.begun) :
    FreshItem coin t := by
  obtain ⟨row, hrow, hpayload, hstatus⟩ := hfresh
  exact ⟨row, htable row hrow, hpayload, by rw [hbegun]; exact hstatus⟩

theorem NoLostRefresh.mono {coin : String} {s t : RefreshState W} (hs : NoLostRefresh coin s)
    (henqueued : t.enqueued = s.enqueued) (hread : t.readUpTo = s.readUpTo)
    (hfresh : FreshItem coin s → FreshItem coin t) : NoLostRefresh coin t := by
  intro refresh hrefresh
  rw [henqueued] at hrefresh
  rw [hread]
  exact (hs refresh hrefresh).imp_right hfresh

variable [DecidableEq W]

/-- `ENQUEUE_QUEUE_SQL`: a live row of the same item absorbs the insert. -/
def enqueueQueue (s : World W QueueColumns) (columns : QueueColumns) (id now : ℤ) :
    Option (World W QueueColumns) :=
  if ∃ row ∈ s.table, row.status.live ∧ row.payload = columns then
    some s
  else
    leaseStep (queueLease W) s (.insert id now columns)

/-- The worker begins the run of the row it claimed; a rollup run of the coin
reads every refresh committed by now. -/
def startRun (coin : String) (s : RefreshState W) (self : W) (c : OpenClaim) : RefreshState W :=
  { s with
    started := Function.update s.started self true
    begun :=
      if c.number = s.queue.claimCount c.id then Function.update s.begun c.id true else s.begun
    readUpTo :=
      if ∃ row ∈ s.queue.table, row.id = c.id ∧ row.payload = rollupItem coin then
        s.commits
      else
        s.readUpTo }

/-- One step. A worker ends its claim by a terminal write only after its run. -/
def refreshStep (coin : String) (s : RefreshState W) : RefreshAction W → Option (RefreshState W)
  | .commitCandles =>
    some { s with commits := s.commits + 1, awaiting := (s.commits + 1) :: s.awaiting }
  | .enqueueRefresh refresh id now =>
    if refresh ∈ s.awaiting then
      (enqueueQueue s.queue (rollupItem coin) id now).map fun queue =>
        { s with
          queue := queue
          awaiting := s.awaiting.erase refresh
          enqueued := refresh :: s.enqueued }
    else
      none
  | .enqueueOther columns id now =>
    (enqueueQueue s.queue columns id now).map fun queue => { s with queue := queue }
  | .claim self id now leaseSecs locked =>
    (leaseStep (queueLease W) s.queue (.claim self id now leaseSecs locked)).map fun queue =>
      { s with
        queue := queue
        started := Function.update s.started self false
        begun := Function.update s.begun id false }
  | .startRun self =>
    if s.started self then none else (s.queue.holding self).map (startRun coin s self)
  | .write self op =>
    if op.event.isSome ∧ s.started self = false then
      none
    else
      (leaseStep (queueLease W) s.queue (.write self op)).map fun queue => { s with queue := queue }
  | .abandon self =>
    (leaseStep (queueLease W) s.queue (.abandon self)).map fun queue => { s with queue := queue }

/-- At a refresh's enqueue no live rollup item of the coin has a run that has
begun to read, unless a run read that refresh already. -/
def EnqueueUnabsorbed (coin : String) (s : RefreshState W) : RefreshAction W → Prop
  | .enqueueRefresh refresh _ _ =>
    refresh ≤ s.readUpTo ∨
      ∀ row ∈ s.queue.table, row.payload = rollupItem coin → row.status = .claimed →
        s.begun row.id = false
  | _ => True

instance (coin : String) (s : RefreshState W) :
    (a : RefreshAction W) → Decidable (EnqueueUnabsorbed coin s a)
  | .enqueueRefresh _ _ _ => inferInstanceAs (Decidable (_ ∨ _))
  | .commitCandles | .enqueueOther _ _ _ | .claim _ _ _ _ _ | .startRun _ | .write _ _
  | .abandon _ => inferInstanceAs (Decidable True)

theorem rowsFrom_claim {s t : World W QueueColumns} {self : W} {id now leaseSecs : ℤ}
    {locked : List ℤ} (hlease : LeaseInvariant s)
    (h : leaseStep (queueLease W) s (.claim self id now leaseSecs locked) = some t) :
    RowsFrom s t := by
  obtain ⟨⟨taken, htaken, htakenId, hclaimable, -⟩, -, row, -, -, rfl⟩ := leaseStep_claim h
  intro row' hrow'
  rcases mem_claimStep.mp hrow' with ⟨old, hold, hid, rfl⟩ | ⟨hold, -⟩
  · obtain rfl := hlease.keyed.eq_of_mem htaken hold (htakenId.trans hid.symm)
    exact ⟨taken, hold, rfl, rfl, fun _ => live_of_claimable hclaimable⟩
  · exact ⟨row', hold, rfl, rfl, fun hlive => hlive⟩

theorem rowsFrom_write {s t : World W QueueColumns} {self : W} {op : LeaseWrite}
    (hlease : LeaseInvariant s) (h : leaseStep (queueLease W) s (.write self op) = some t) :
    RowsFrom s t := by
  obtain ⟨c, f, hc, hf, rfl⟩ := leaseStep_write h
  intro row' hrow'
  rcases mem_writeStep.mp hrow' with ⟨old, hold, howned, rfl⟩ | ⟨hold, -⟩
  · have hclaimed := (hlease.held self c hc old hold howned).1
    exact ⟨old, hold, (LeaseTable.effect_id hf old).symm, (queue_effect_payload hf old).symm,
      fun _ => Or.inr (Or.inl hclaimed)⟩
  · exact ⟨row', hold, rfl, rfl, fun hlive => hlive⟩

/-- An enqueue changes nothing while a live row of the item exists; otherwise it
adds a pending row of the item. -/
theorem enqueueQueue_cases {s t : World W QueueColumns} {columns : QueueColumns} {id now : ℤ}
    (h : enqueueQueue s columns id now = some t) :
    (t = s ∧ ∃ row ∈ s.table, row.status.live ∧ row.payload = columns) ∨
      ((∀ row ∈ s.table, row.status.live → row.payload ≠ columns) ∧
        (∀ row ∈ s.table, row.id ≠ id) ∧
        t = { s with table := newRow id now columns :: s.table }) := by
  unfold enqueueQueue at h
  split_ifs at h with hlive
  · exact Or.inl ⟨(Option.some.inj h).symm, hlive⟩
  · push Not at hlive
    exact Or.inr ⟨hlive, leaseStep_insert h⟩

theorem Deduplicated.enqueue {s t : World W QueueColumns} {columns : QueueColumns} {id now : ℤ}
    (hdedup : Deduplicated s) (h : enqueueQueue s columns id now = some t) : Deduplicated t := by
  rcases enqueueQueue_cases h with ⟨rfl, -⟩ | ⟨hnone, -, rfl⟩
  · exact hdedup
  · intro a ha b hb hla hlb hpayload
    rcases List.mem_cons.mp ha with rfl | ha <;> rcases List.mem_cons.mp hb with rfl | hb
    · rfl
    · exact absurd hpayload.symm (hnone b hb hlb)
    · exact absurd hpayload (hnone a ha hla)
    · exact hdedup a ha b hb hla hlb hpayload

theorem mem_enqueueQueue {s t : World W QueueColumns} {columns : QueueColumns} {id now : ℤ}
    (h : enqueueQueue s columns id now = some t) : ∀ row ∈ s.table, row ∈ t.table := by
  rcases enqueueQueue_cases h with ⟨rfl, -⟩ | ⟨-, -, rfl⟩
  · exact fun _ hrow => hrow
  · exact fun _ hrow => List.mem_cons_of_mem _ hrow

theorem ownersFrom_enqueue {s t : World W QueueColumns} {columns : QueueColumns} {id now : ℤ}
    (h : enqueueQueue s columns id now = some t) : OwnersFrom s t := by
  rcases enqueueQueue_cases h with ⟨rfl, -⟩ | ⟨-, -, rfl⟩
  · exact fun _ _ hc row hrow howned => ⟨hc, row, hrow, howned⟩
  · intro self c hc row hrow howned
    rcases List.mem_cons.mp hrow with rfl | hold
    · cases howned.2
    · exact ⟨hc, row, hold, howned⟩

theorem RefreshInvariant.enqueue {s : RefreshState W} {queue : World W QueueColumns}
    {columns : QueueColumns} {id now : ℤ} (hinv : RefreshInvariant s)
    (h : enqueueQueue s.queue columns id now = some queue) :
    LeaseInvariant queue ∧ BudgetInvariant queue ∧ Deduplicated queue := by
  have hdedup := hinv.dedup.enqueue h
  rcases enqueueQueue_cases h with ⟨rfl, -⟩ | ⟨-, hfresh, rfl⟩
  · exact ⟨hinv.lease, hinv.budget, hdedup⟩
  · exact ⟨hinv.lease.insert now _ hfresh, hinv.budget.insert now columns hfresh, hdedup⟩

theorem ownersFrom_write {s t : World W QueueColumns} {self : W} {op : LeaseWrite}
    (h : leaseStep (queueLease W) s (.write self op) = some t) : OwnersFrom s t := by
  obtain ⟨c, f, hc, hf, rfl⟩ := leaseStep_write h
  intro self' c' hc' row' hrow' howned
  constructor
  · exact holding_of_writeStep hc'
  rcases mem_writeStep.mp hrow' with ⟨old, hold, -, rfl⟩ | ⟨hold, -⟩
  · refine ⟨old, hold, ?_, ?_⟩
    · rw [← howned.1, LeaseTable.effect_id hf old]
    · rcases LeaseTable.effect_claimedBy hf old with hsame | hnone
      · exact hsame.symm.trans howned.2
      · exact absurd (hnone.symm.trans howned.2) (by simp)
  · exact ⟨row', hold, howned⟩

theorem ownersFrom_abandon {s t : World W QueueColumns} {self : W}
    (h : leaseStep (queueLease W) s (.abandon self) = some t) :
    t.table = s.table ∧ OwnersFrom s t := by
  obtain rfl := leaseStep_abandon h
  constructor
  · rfl
  · intro self' c hc row' hrow' howned
    by_cases hself : self' = self
    · subst hself
      simp at hc
    · exact ⟨by simpa [Function.update_of_ne hself] using hc, row', hrow', howned⟩

theorem RefreshInvariant.claim {s : RefreshState W} {self : W} {id now leaseSecs : ℤ}
    {locked : List ℤ} {queue : World W QueueColumns} (hinv : RefreshInvariant s)
    (hqueue : leaseStep (queueLease W) s.queue (.claim self id now leaseSecs locked) =
      some queue) :
    RefreshInvariant { s with
      queue := queue
      started := Function.update s.started self false
      begun := Function.update s.begun id false } where
  lease := hinv.lease.preserved hqueue
  budget := hinv.budget.preserved hinv.lease hqueue
  dedup := hinv.dedup.of_rowsFrom (rowsFrom_claim hinv.lease hqueue)
  issued := hinv.issued
  read := hinv.read
  begun := by
    intro self' c hc hstarted row hrow howned
    by_cases hself : self' = self
    · subst hself
      simp at hstarted
    · obtain ⟨-, -, taken, -, -, rfl⟩ := leaseStep_claim hqueue
      have hholds : s.queue.holding self' = some c := by
        simpa [claimStep, Function.update_of_ne hself] using hc
      rcases mem_claimStep.mp hrow with ⟨old, -, -, rfl⟩ | ⟨hold, hne⟩
      · exact absurd (Option.some.inj howned.2).symm hself
      · simp only [Function.update_of_ne hself] at hstarted
        simp only [Function.update_of_ne hne]
        exact hinv.begun self' c hholds hstarted row hold howned

theorem RefreshInvariant.startRun {coin : String} {s : RefreshState W} {self : W} {c : OpenClaim}
    (hinv : RefreshInvariant s) (hc : s.queue.holding self = some c) :
    RefreshInvariant (startRun coin s self c) where
  lease := hinv.lease
  budget := hinv.budget
  dedup := hinv.dedup
  issued := hinv.issued
  read := by
    simp only [Collectors.startRun]
    split_ifs
    · exact le_rfl
    · exact hinv.read
  begun := by
    intro self' c' hc' hstarted' row hrow howned
    have hcurrent := (hinv.lease.held self' c' hc' row hrow howned).2.1
    by_cases hself : self' = self
    · subst hself
      obtain rfl : c = c' := Option.some.inj (hc.symm.trans hc')
      simp [Collectors.startRun, hcurrent, howned.1]
    · have hbegun : s.begun row.id = true := by
        refine hinv.begun self' c' hc' ?_ row hrow howned
        simpa [Collectors.startRun, Function.update_of_ne hself] using hstarted'
      simp only [Collectors.startRun]
      split_ifs
      · by_cases hid : row.id = c.id
        · simp [hid]
        · simpa [Function.update_of_ne hid] using hbegun
      · exact hbegun

theorem RefreshInvariant.preserved {coin : String} {s t : RefreshState W} {a : RefreshAction W}
    (hinv : RefreshInvariant s) (h : refreshStep coin s a = some t) : RefreshInvariant t := by
  cases a with
  | commitCandles =>
    obtain rfl := Option.some.inj h
    refine ⟨hinv.lease, hinv.budget, hinv.dedup, ?_, Nat.le_succ_of_le hinv.read, hinv.begun⟩
    intro refresh hrefresh
    rcases hrefresh with hawaiting | henqueued
    · rcases List.mem_cons.mp hawaiting with rfl | hold
      · exact le_rfl
      · exact Nat.le_succ_of_le (hinv.issued refresh (Or.inl hold))
    · exact Nat.le_succ_of_le (hinv.issued refresh (Or.inr henqueued))
  | enqueueRefresh refresh id now =>
    simp only [refreshStep] at h
    split_ifs at h with hawaiting
    obtain ⟨queue, hqueue, rfl⟩ := Option.map_eq_some_iff.mp h
    obtain ⟨hlease, hbudget, hdedup⟩ := hinv.enqueue hqueue
    exact ⟨hlease, hbudget, hdedup, hinv.issued_enqueue hawaiting, hinv.read,
      hinv.begun_of_ownersFrom (ownersFrom_enqueue hqueue)⟩
  | enqueueOther columns id now =>
    obtain ⟨queue, hqueue, rfl⟩ := Option.map_eq_some_iff.mp h
    obtain ⟨hlease, hbudget, hdedup⟩ := hinv.enqueue hqueue
    exact ⟨hlease, hbudget, hdedup, hinv.issued, hinv.read,
      hinv.begun_of_ownersFrom (ownersFrom_enqueue hqueue)⟩
  | claim self id now leaseSecs locked =>
    obtain ⟨queue, hqueue, rfl⟩ := Option.map_eq_some_iff.mp h
    exact hinv.claim hqueue
  | startRun self =>
    simp only [refreshStep] at h
    split_ifs at h with hstarted
    obtain ⟨c, hc, rfl⟩ := Option.map_eq_some_iff.mp h
    exact hinv.startRun hc
  | write self op =>
    simp only [refreshStep] at h
    split_ifs at h with hterminal
    obtain ⟨queue, hqueue, rfl⟩ := Option.map_eq_some_iff.mp h
    exact ⟨hinv.lease.preserved hqueue, hinv.budget.preserved hinv.lease hqueue,
      hinv.dedup.of_rowsFrom (rowsFrom_write hinv.lease hqueue), hinv.issued, hinv.read,
      hinv.begun_of_ownersFrom (ownersFrom_write hqueue)⟩
  | abandon self =>
    obtain ⟨queue, hqueue, rfl⟩ := Option.map_eq_some_iff.mp h
    obtain ⟨htable, hfrom⟩ := ownersFrom_abandon hqueue
    refine ⟨hinv.lease.preserved hqueue, hinv.budget.preserved hinv.lease hqueue, ?_,
      hinv.issued, hinv.read, hinv.begun_of_ownersFrom hfrom⟩
    unfold Deduplicated
    rw [htable]
    exact hinv.dedup

theorem FreshItem.claim {coin : String} {s t : RefreshState W} {self : W}
    {id now leaseSecs : ℤ} {locked : List ℤ} (hfresh : FreshItem coin s)
    (h : refreshStep coin s (.claim self id now leaseSecs locked) = some t) :
    FreshItem coin t := by
  obtain ⟨queue, hqueue, rfl⟩ := Option.map_eq_some_iff.mp h
  obtain ⟨row, hrow, hpayload, hstatus⟩ := hfresh
  obtain ⟨-, -, taken, -, -, rfl⟩ := leaseStep_claim hqueue
  by_cases hid : row.id = id
  · refine ⟨claimRow self now leaseSecs row, mem_claimStep.mpr (Or.inl ⟨row, hrow, hid, rfl⟩),
      hpayload, Or.inr ⟨rfl, ?_⟩⟩
    simp [claimRow, hid]
  · refine ⟨row, mem_claimStep.mpr (Or.inr ⟨hrow, hid⟩), hpayload, ?_⟩
    simpa [Function.update_of_ne hid] using hstatus

/-- A write never ends a run that has not begun, so it leaves a fresh item fresh. -/
theorem FreshItem.write {coin : String} {s t : RefreshState W} {self : W} {op : LeaseWrite}
    (hinv : RefreshInvariant s) (hfresh : FreshItem coin s)
    (h : refreshStep coin s (.write self op) = some t) : FreshItem coin t := by
  simp only [refreshStep] at h
  split_ifs at h with hterminal
  obtain ⟨queue, hqueue, rfl⟩ := Option.map_eq_some_iff.mp h
  obtain ⟨row, hrow, hpayload, hstatus⟩ := hfresh
  obtain ⟨c, f, hc, hf, rfl⟩ := leaseStep_write hqueue
  by_cases howned : ownedBy self c.id row
  · have hclaimed := (hinv.lease.held self c hc row hrow howned).1
    have hevent : op.event = none := by
      by_contra hsome
      have hstarted : s.started self = true := by
        by_contra hnot
        exact hterminal ⟨Option.isSome_iff_ne_none.mpr hsome, by simpa using hnot⟩
      have hbegun := hinv.begun self c hc hstarted row hrow howned
      simp [hclaimed, hbegun] at hstatus
    refine ⟨f row, mem_writeStep.mpr (Or.inl ⟨row, hrow, howned, rfl⟩),
      (queue_effect_payload hf row).trans hpayload, ?_⟩
    rw [(LeaseTable.effect_of_event_none hf hevent row).1, LeaseTable.effect_id hf row]
    exact hstatus
  · exact ⟨row, mem_writeStep.mpr (Or.inr ⟨hrow, howned⟩), hpayload, hstatus⟩

theorem freshItem_startRun {coin : String} {s : RefreshState W} (self : W) (c : OpenClaim)
    (hfresh : FreshItem coin s) :
    (startRun coin s self c).readUpTo = s.commits ∨
      (startRun coin s self c).readUpTo = s.readUpTo ∧ FreshItem coin (startRun coin s self c) := by
  obtain ⟨row, hrow, hpayload, hstatus⟩ := hfresh
  by_cases hreads : ∃ row ∈ s.queue.table, row.id = c.id ∧ row.payload = rollupItem coin
  · exact Or.inl (if_pos hreads)
  · have hne : row.id ≠ c.id := fun hid => hreads ⟨row, hrow, hid, hpayload⟩
    refine Or.inr ⟨if_neg hreads, row, hrow, hpayload, ?_⟩
    simp only [startRun]
    split_ifs
    · simpa [Function.update_of_ne hne] using hstatus
    · exact hstatus

/-- The enqueue of a refresh leaves an item for it exactly when it is not
absorbed by an item whose run has begun. -/
theorem freshItem_enqueueRefresh_iff {coin : String} {s : RefreshState W}
    {queue : World W QueueColumns} {id now : ℤ} (hinv : RefreshInvariant s)
    (h : enqueueQueue s.queue (rollupItem coin) id now = some queue) (awaiting enqueued : List ℕ) :
    FreshItem coin { s with queue := queue, awaiting := awaiting, enqueued := enqueued } ↔
      ∀ row ∈ s.queue.table, row.payload = rollupItem coin → row.status = .claimed →
        s.begun row.id = false := by
  rcases enqueueQueue_cases h with ⟨rfl, live, hlive, hliveStatus, hlivePayload⟩ |
    ⟨hnone, -, rfl⟩
  · constructor
    · rintro ⟨row, hrow, hpayload, hstatus⟩ row' hrow' hpayload' hclaimed'
      have hrowLive : row.status.live := by
        rcases hstatus with hpending | ⟨hclaimed, -⟩
        · exact Or.inl hpending
        · exact Or.inr (Or.inl hclaimed)
      have hid := hinv.dedup row hrow row' hrow' hrowLive (Or.inr (Or.inl hclaimed'))
        (hpayload.trans hpayload'.symm)
      obtain rfl := hinv.lease.keyed.eq_of_mem hrow hrow' hid
      simpa [hclaimed'] using hstatus
    · intro hall
      refine ⟨live, hlive, hlivePayload, ?_⟩
      rcases hliveStatus with hpending | hclaimed | hrunning
      · exact Or.inl hpending
      · exact Or.inr ⟨hclaimed, hall live hlive hlivePayload hclaimed⟩
      · exact absurd hrunning (hinv.budget.rows live hlive).notRunning
  · constructor
    · intro _ row hrow hpayload hclaimed
      exact absurd hpayload (hnone row hrow (Or.inr (Or.inl hclaimed)))
    · intro _
      exact ⟨newRow id now (rollupItem coin), List.mem_cons_self, rfl, Or.inl rfl⟩

theorem NoLostRefresh.startRun {coin : String} {s : RefreshState W} (hinv : RefreshInvariant s)
    (hs : NoLostRefresh coin s) (self : W) (c : OpenClaim) :
    NoLostRefresh coin (startRun coin s self c) := by
  intro refresh hrefresh
  have hissued := hinv.issued refresh (Or.inr hrefresh)
  rcases hs refresh hrefresh with hread | hfresh
  · left
    simp only [Collectors.startRun]
    split_ifs
    · exact hissued
    · exact hread
  · rcases freshItem_startRun self c hfresh with hreads | ⟨-, hnext⟩
    · left
      rw [hreads]
      exact hissued
    · exact Or.inr hnext

/-- After a step no refresh is lost exactly when the step was no absorbed
enqueue. -/
theorem noLostRefresh_step_iff {coin : String} {s t : RefreshState W} {a : RefreshAction W}
    (hinv : RefreshInvariant s) (hs : NoLostRefresh coin s) (h : refreshStep coin s a = some t) :
    NoLostRefresh coin t ↔ EnqueueUnabsorbed coin s a := by
  cases a with
  | commitCandles =>
    obtain rfl := Option.some.inj h
    simp only [EnqueueUnabsorbed, iff_true]
    exact hs.mono rfl rfl fun hfresh => hfresh.mono (fun _ hrow => hrow) rfl
  | enqueueRefresh refresh id now =>
    simp only [refreshStep] at h
    split_ifs at h with hawaiting
    obtain ⟨queue, hqueue, rfl⟩ := Option.map_eq_some_iff.mp h
    have hiff := freshItem_enqueueRefresh_iff hinv hqueue (s.awaiting.erase refresh)
      (refresh :: s.enqueued)
    simp only [EnqueueUnabsorbed, ← hiff]
    constructor
    · intro hnext
      exact hnext refresh List.mem_cons_self
    · intro hnew other hother
      rcases List.mem_cons.mp hother with rfl | hold
      · exact hnew
      · exact (hs other hold).imp_right fun hfresh => hfresh.mono (mem_enqueueQueue hqueue) rfl
  | enqueueOther columns id now =>
    obtain ⟨queue, hqueue, rfl⟩ := Option.map_eq_some_iff.mp h
    simp only [EnqueueUnabsorbed, iff_true]
    exact hs.mono rfl rfl fun hfresh => hfresh.mono (mem_enqueueQueue hqueue) rfl
  | claim self id now leaseSecs locked =>
    simp only [EnqueueUnabsorbed, iff_true]
    have hnext := fun hfresh : FreshItem coin s => hfresh.claim h
    obtain ⟨queue, hqueue, rfl⟩ := Option.map_eq_some_iff.mp h
    exact hs.mono rfl rfl hnext
  | startRun self =>
    simp only [refreshStep] at h
    split_ifs at h with hstarted
    obtain ⟨c, hc, rfl⟩ := Option.map_eq_some_iff.mp h
    simp only [EnqueueUnabsorbed, iff_true]
    exact hs.startRun hinv self c
  | write self op =>
    simp only [EnqueueUnabsorbed, iff_true]
    have hnext := fun hfresh : FreshItem coin s => FreshItem.write hinv hfresh h
    simp only [refreshStep] at h
    split_ifs at h with hterminal
    obtain ⟨queue, hqueue, rfl⟩ := Option.map_eq_some_iff.mp h
    exact hs.mono rfl rfl hnext
  | abandon self =>
    obtain ⟨queue, hqueue, rfl⟩ := Option.map_eq_some_iff.mp h
    simp only [EnqueueUnabsorbed, iff_true]
    have htable := (ownersFrom_abandon hqueue).1
    exact hs.mono rfl rfl fun hfresh => hfresh.mono (fun row hrow => by rw [htable]; exact hrow) rfl

theorem everyReached_noLostRefresh_iff {coin : String} {s t : RefreshState W}
    {as : List (RefreshAction W)} (hinv : RefreshInvariant s) (hs : NoLostRefresh coin s)
    (hrun : exec (refreshStep coin) s as = some t) :
    EveryReached (refreshStep coin) (NoLostRefresh coin) s as ↔
      StepsMeet (refreshStep coin) (EnqueueUnabsorbed coin) s as := by
  induction as generalizing s with
  | nil => simp [everyReached_nil, StepsMeet, hs]
  | cons a as ih =>
    obtain ⟨u, hu, hrest⟩ := (exec_cons_eq_some _).mp hrun
    have hstep := noLostRefresh_step_iff hinv hs hu
    simp only [everyReached_cons, StepsMeet, hu, Option.some.injEq, forall_eq', hs, true_and]
    constructor
    · intro hevery
      have hnext : NoLostRefresh coin u := hevery [] List.nil_prefix u rfl
      exact ⟨hstep.mp hnext, (ih (hinv.preserved hu) hnext hrest).mp hevery⟩
    · rintro ⟨hmeet, htail⟩
      exact (ih (hinv.preserved hu) (hstep.mpr hmeet) hrest).mpr htail

/-- No refresh is lost in any state of a run exactly when no refresh's enqueue
is absorbed by an item whose run had begun to read before it committed. -/
theorem no_lost_refresh_iff (coin : String) {as : List (RefreshAction W)} {t : RefreshState W}
    (hrun : exec (refreshStep coin) RefreshState.init as = some t) :
    EveryReached (refreshStep coin) (NoLostRefresh coin) RefreshState.init as ↔
      StepsMeet (refreshStep coin) (EnqueueUnabsorbed coin) RefreshState.init as :=
  everyReached_noLostRefresh_iff RefreshInvariant.init (by simp [NoLostRefresh, RefreshState.init])
    hrun

/-- The run of replica 7 begins to read, then a refresh commits and its enqueue
is absorbed. -/
def absorbedRefreshRun : List (RefreshAction ℕ) :=
  [.enqueueOther (rollupItem "bitcoin") 1 0, .claim 7 1 1 60 [], .startRun 7, .commitCandles,
    .enqueueRefresh 1 2 2]

theorem absorbedRefreshRun_enabled :
    (exec (refreshStep "bitcoin") RefreshState.init absorbedRefreshRun).isSome := by decide

/-- The absorbed refresh is lost: its item's run read before it committed. -/
theorem absorbed_refresh_lost :
    ∃ t, exec (refreshStep "bitcoin") RefreshState.init absorbedRefreshRun = some t ∧
      ¬NoLostRefresh "bitcoin" t :=
  ⟨_, (Option.some_get absorbedRefreshRun_enabled).symm, by decide⟩

/-- The refresh commits before the claimed run begins. -/
def servedRefreshRun : List (RefreshAction ℕ) :=
  [.enqueueOther (rollupItem "bitcoin") 1 0, .claim 7 1 1 60 [], .commitCandles,
    .enqueueRefresh 1 2 2, .startRun 7, .write 7 .complete]

theorem servedRefreshRun_enabled :
    (exec (refreshStep "bitcoin") RefreshState.init servedRefreshRun).isSome := by decide

theorem no_lost_refresh_served :
    EveryReached (refreshStep "bitcoin") (NoLostRefresh "bitcoin") RefreshState.init
      servedRefreshRun :=
  (no_lost_refresh_iff "bitcoin" (Option.some_get servedRefreshRun_enabled).symm).mpr
    (by decide)

end CryptoCollector.Collectors

import CryptoCollector.Foundations.Runs
import CryptoCollector.Foundations.Tables
import CryptoCollector.Time

/-!
# Leased rows

`backfill_chunks` and `collection_queue` share one lease protocol: a worker
claims a row, renews its lease by heartbeats while it works, and ends the claim
with one terminal statement. Every statement after the claim is guarded by
`id = $id AND claimed_by = $self`. The two tables differ in their payload
columns, in what completion writes, and in the cursor only a chunk has. The
column `updated_at` is read by nothing here and is left out.
-/

namespace CryptoCollector.Collectors
open Foundations DateTime

inductive Status where
  | pending
  | claimed
  | running
  | done
  | failed
  deriving DecidableEq, Repr

/-- A row of a leased table, over the replica ids `W` and the table's own
columns `P`. `enqueuedAt` is the column the claim sorts by. -/
structure LeaseRow (W P : Type*) where
  id : ℤ
  status : Status
  claimedBy : Option W
  leaseExpiresAt : Option ℤ
  heartbeatAt : Option ℤ
  attempts : ℤ
  lastError : Option String
  enqueuedAt : ℤ
  payload : P
  deriving DecidableEq, Repr

structure ChunkColumns where
  jobId : ℤ
  coinId : String
  dataset : String
  interval : Option String
  rangeStart : Option ℤ
  rangeEnd : Option ℤ
  cursor : Option ℤ
  deriving DecidableEq, Repr

structure QueueColumns where
  targetKind : String
  targetId : String
  kind : String
  deriving DecidableEq, Repr

abbrev ChunkRow (W : Type*) := LeaseRow W ChunkColumns

abbrev QueueRow (W : Type*) := LeaseRow W QueueColumns

section Statements

variable {W P : Type*}

/-- A row as the enqueue statements insert it. -/
def newRow (id enqueuedAt : ℤ) (payload : P) : LeaseRow W P :=
  ⟨id, .pending, none, none, none, 0, none, enqueuedAt, payload⟩

/-- The condition of the claim: pending, or taken with an expired lease. -/
def claimable (now : ℤ) (row : LeaseRow W P) : Prop :=
  row.status = .pending ∨
    ((row.status = .claimed ∨ row.status = .running) ∧ ∃ expiry ∈ row.leaseExpiresAt, expiry < now)

instance (now : ℤ) (row : LeaseRow W P) : Decidable (claimable now row) :=
  inferInstanceAs (Decidable (_ ∨ _))

/-- The row `id` may be the one the claim's subquery returns: claimable, not
locked by another transaction (`SKIP LOCKED`), and no such row is older. -/
def claimCandidate (table : List (LeaseRow W P)) (now : ℤ) (locked : List ℤ) (id : ℤ) : Prop :=
  ∃ row ∈ table, row.id = id ∧ claimable now row ∧ id ∉ locked ∧
    ∀ other ∈ table, claimable now other → other.id ∉ locked → row.enqueuedAt ≤ other.enqueuedAt

instance (table : List (LeaseRow W P)) (now : ℤ) (locked : List ℤ) (id : ℤ) :
    Decidable (claimCandidate table now locked id) :=
  inferInstanceAs (Decidable (∃ row ∈ table, _))

/-- The `SET` of `CLAIM_BACKFILL_SQL` and `CLAIM_QUEUE_SQL`. -/
def claimRow (self : W) (now leaseSecs : ℤ) (row : LeaseRow W P) : LeaseRow W P :=
  { row with
    status := .claimed
    claimedBy := some self
    leaseExpiresAt := some (now + seconds leaseSecs)
    heartbeatAt := some now
    attempts := row.attempts + 1 }

/-- The `SET` of `HEARTBEAT_BACKFILL_SQL` and `HEARTBEAT_QUEUE_SQL`. -/
def heartbeatRow (now leaseSecs : ℤ) (row : LeaseRow W P) : LeaseRow W P :=
  { row with
    leaseExpiresAt := some (now + seconds leaseSecs)
    heartbeatAt := some now }

/-- The `SET` of `FAIL_OR_RETRY_BACKFILL_SQL` and `FAIL_OR_RETRY_QUEUE_SQL`. -/
def failOrRetryRow (maxAttempts : ℤ) (err : String) (row : LeaseRow W P) : LeaseRow W P :=
  { row with
    status := if row.attempts ≥ maxAttempts then .failed else .pending
    lastError := some err
    claimedBy := none
    leaseExpiresAt := none
    heartbeatAt := none }

/-- The `SET` of `RELEASE_BACKFILL_SQL` and `RELEASE_QUEUE_SQL`. -/
def releaseRow (row : LeaseRow W P) : LeaseRow W P :=
  { row with
    status := .pending
    lastError := none
    attempts := max (row.attempts - 1) 0
    claimedBy := none
    leaseExpiresAt := none
    heartbeatAt := none }

/-- The `SET` of `FAIL_PERMANENT_BACKFILL_SQL` and `FAIL_PERMANENT_QUEUE_SQL`. -/
def failPermanentRow (err : String) (row : LeaseRow W P) : LeaseRow W P :=
  { row with
    status := .failed
    lastError := some err
    claimedBy := none
    leaseExpiresAt := none
    heartbeatAt := none }

/-- The `SET` of `ADVANCE_CURSOR_SQL`. -/
def advanceCursorRow (cursor : ℤ) (row : ChunkRow W) : ChunkRow W :=
  { row with payload := { row.payload with cursor := some (storeTimestamptz cursor) } }

/-- The `SET` of `COMPLETE_BACKFILL_SQL`. -/
def completeBackfillRow (row : ChunkRow W) : ChunkRow W :=
  { row with
    status := .done
    payload := { row.payload with cursor := row.payload.rangeEnd }
    claimedBy := none
    leaseExpiresAt := none }

/-- The `SET` of `COMPLETE_QUEUE_SQL`: the owner stays. -/
def completeQueueRow (row : QueueRow W) : QueueRow W :=
  { row with status := .done }

end Statements

/-- A guarded statement a worker issues under its claim. -/
inductive LeaseWrite where
  | heartbeat (now leaseSecs : ℤ)
  | advanceCursor (cursor : ℤ)
  | complete
  | release
  | failOrRetry (maxAttempts : ℤ) (err : String)
  | failPermanent (err : String)
  deriving DecidableEq, Repr

/-- The end of a claim that a terminal statement records. -/
inductive RowEvent where
  | claim
  | completion
  | nonFailureRelease
  | transientFailure
  | permanentFailure
  deriving DecidableEq, Repr

/-- The event a write leaves behind; `none` for the writes that do not end the claim. -/
def LeaseWrite.event : LeaseWrite → Option RowEvent
  | .heartbeat _ _ => none
  | .advanceCursor _ => none
  | .complete => some .completion
  | .release => some .nonFailureRelease
  | .failOrRetry _ _ => some .transientFailure
  | .failPermanent _ => some .permanentFailure

/-- What a leased table adds to the shared statements: its cursor statement, if
it has one, and its completion. The cursor statement leaves the lease alone, and
completion only ends it. -/
structure LeaseTable (W P : Type*) where
  advanceCursor : Option (ℤ → LeaseRow W P → LeaseRow W P)
  complete : LeaseRow W P → LeaseRow W P
  advance_frame : ∀ f ∈ advanceCursor, ∀ c row,
    (f c row).id = row.id ∧ (f c row).status = row.status ∧
      (f c row).claimedBy = row.claimedBy ∧ (f c row).attempts = row.attempts
  complete_frame : ∀ row, (complete row).id = row.id ∧ (complete row).attempts = row.attempts ∧
    ((complete row).claimedBy = row.claimedBy ∨ (complete row).claimedBy = none)
  complete_status : ∀ row, (complete row).status = .done

def backfillLease (W : Type*) : LeaseTable W ChunkColumns where
  advanceCursor := some advanceCursorRow
  complete := completeBackfillRow
  advance_frame := by
    intro f hf c row
    obtain rfl : advanceCursorRow = f := by simpa using hf
    exact ⟨rfl, rfl, rfl, rfl⟩
  complete_frame row := ⟨rfl, rfl, Or.inr rfl⟩
  complete_status row := rfl

def queueLease (W : Type*) : LeaseTable W QueueColumns where
  advanceCursor := none
  complete := completeQueueRow
  advance_frame := by simp
  complete_frame row := ⟨rfl, rfl, Or.inl rfl⟩
  complete_status row := rfl

namespace LeaseTable

variable {W P : Type*}

/-- The `SET` of a guarded write; `none` when the table has no such statement. -/
def effect (T : LeaseTable W P) : LeaseWrite → Option (LeaseRow W P → LeaseRow W P)
  | .heartbeat now leaseSecs => some (heartbeatRow now leaseSecs)
  | .advanceCursor cursor => T.advanceCursor.map fun f => f cursor
  | .complete => some T.complete
  | .release => some releaseRow
  | .failOrRetry maxAttempts err => some (failOrRetryRow maxAttempts err)
  | .failPermanent err => some (failPermanentRow err)

variable {T : LeaseTable W P} {op : LeaseWrite} {f : LeaseRow W P → LeaseRow W P}

theorem effect_id (h : T.effect op = some f) (row : LeaseRow W P) : (f row).id = row.id := by
  cases op with
  | advanceCursor cursor =>
    obtain ⟨g, hg, rfl⟩ := Option.map_eq_some_iff.mp h
    exact (T.advance_frame g hg cursor row).1
  | complete =>
    cases h
    exact (T.complete_frame row).1
  | heartbeat now leaseSecs | release | failOrRetry maxAttempts err | failPermanent err =>
    cases h
    rfl

theorem effect_claimedBy (h : T.effect op = some f) (row : LeaseRow W P) :
    (f row).claimedBy = row.claimedBy ∨ (f row).claimedBy = none := by
  cases op with
  | advanceCursor cursor =>
    obtain ⟨g, hg, rfl⟩ := Option.map_eq_some_iff.mp h
    exact Or.inl (T.advance_frame g hg cursor row).2.2.1
  | complete =>
    cases h
    exact (T.complete_frame row).2.2
  | heartbeat now leaseSecs =>
    cases h
    exact Or.inl rfl
  | release | failOrRetry maxAttempts err | failPermanent err =>
    cases h
    exact Or.inr rfl

theorem effect_of_event_none (h : T.effect op = some f) (hop : op.event = none)
    (row : LeaseRow W P) : (f row).status = row.status ∧ (f row).attempts = row.attempts := by
  cases op with
  | advanceCursor cursor =>
    obtain ⟨g, hg, rfl⟩ := Option.map_eq_some_iff.mp h
    have hframe := T.advance_frame g hg cursor row
    exact ⟨hframe.2.1, hframe.2.2.2⟩
  | heartbeat now leaseSecs =>
    cases h
    exact ⟨rfl, rfl⟩
  | complete | release | failOrRetry maxAttempts err | failPermanent err => cases hop

end LeaseTable
end CryptoCollector.Collectors

import CryptoCollector.Collectors.Backfill
import CryptoCollector.Collectors.LeaseFencing

/-!
# Backfill workers

Replicas running the backfill worker on one `backfill_chunks` table, with what
the providers answered and what was upserted on record. A worker claims a chunk,
processes one page of the chunk as the claim returned it, and issues the writes
of its `finalize` one by one. It may die before any of them, its lease may expire
while it works, and the database may refuse a write, which the worker only logs.
-/

namespace CryptoCollector.Collectors
open Foundations Models Providers DateTime

/-- How far a worker has come with the chunk its claim returned: the page, or
the writes of `finalize` still to come. -/
inductive BackfillWork where
  | fetching (chunk : ChunkColumns)
  | finalizing (chunk : ChunkColumns) (writes : List LeaseWrite)

/-- The chunk table and the workers; the rows upserted so far, newest first; for
each chunk the range requests made with the attempts at them, and the number of
pages whose cursor was stored without completing the chunk. -/
structure BackfillState (W : Type*) where
  queue : World W ChunkColumns
  work : W → Option BackfillWork
  upserted : List CoinCandle
  asked : ℤ → List (RangeRequest × List AttemptRecord)
  pages : ℤ → ℕ

def BackfillState.init {W : Type*} : BackfillState W :=
  ⟨World.empty, fun _ => none, [], fun _ => [], fun _ => 0⟩

inductive BackfillAction (W V : Type*) where
  | enqueue (id now jobId : ℤ) (coinId dataset : String) (interval : Option String)
      (rangeStart rangeEnd : Option ℤ)
  | claim (self : W) (id now leaseSecs : ℤ) (locked : List ℤ)
  | heartbeat (self : W) (now leaseSecs : ℤ)
  | page (self : W) (env : ChunkEnv V)
  | finalize (self : W)
  | refuse (self : W)
  | abandon (self : W)

variable {W V : Type*} [DecidableEq W] [Provider V]

/-- The worker `self` has issued a write of `finalize`, with `rest` still to come.
A cursor write, one that a release follows, counts as a page when it reaches the
chunk. -/
def finalizeStep (s : BackfillState W) (self : W) (chunk : ChunkColumns)
    (rest : List LeaseWrite) (c : OpenClaim) (queue : World W ChunkColumns) : BackfillState W :=
  { s with
    queue := queue
    work := Function.update s.work self
      (if rest.isEmpty then none else some (.finalizing chunk rest))
    pages :=
      if rest = [.release] ∧ ∃ row ∈ s.queue.table, ownedBy self c.id row then
        Function.update s.pages c.id (s.pages c.id + 1)
      else
        s.pages }

def backfillStep (chain : List V) (maxAttempts : ℤ) (s : BackfillState W) :
    BackfillAction W V → Option (BackfillState W)
  | .enqueue id now jobId coinId dataset interval rangeStart rangeEnd =>
    (leaseStep (backfillLease W) s.queue
      (.insert id now (newChunk jobId coinId dataset interval rangeStart rangeEnd))).map
        fun queue => { s with queue := queue }
  | .claim self id now leaseSecs locked =>
    (leaseStep (backfillLease W) s.queue (.claim self id now leaseSecs locked)).bind fun queue =>
      (queue.table.find? fun row => row.id = id).map fun row =>
        { s with
          queue := queue
          work := Function.update s.work self (some (.fetching row.payload)) }
  | .heartbeat self now leaseSecs =>
    match s.work self with
    | some (.fetching _) =>
      (leaseStep (backfillLease W) s.queue (.write self (.heartbeat now leaseSecs))).map
        fun queue => { s with queue := queue }
    | _ => none
  | .page self env =>
    match s.work self, s.queue.holding self with
    | some (.fetching chunk), some c =>
      let page := processChunk env chain chunk
      some { s with
        work := Function.update s.work self
          (some (.finalizing chunk (finalizeWrites maxAttempts chunk page.outcome)))
        upserted := page.upserted ++ s.upserted
        asked := Function.update s.asked c.id (page.asked.toList ++ s.asked c.id) }
    | _, _ => none
  | .finalize self =>
    match s.work self, s.queue.holding self with
    | some (.finalizing chunk (op :: rest)), some c =>
      (leaseStep (backfillLease W) s.queue (.write self op)).map
        (finalizeStep s self chunk rest c)
    | _, _ => none
  | .refuse self =>
    match s.work self with
    | some (.finalizing chunk (_ :: op :: rest)) =>
      some { s with work := Function.update s.work self (some (.finalizing chunk (op :: rest))) }
    | some (.finalizing _ [_]) =>
      (leaseStep (backfillLease W) s.queue (.abandon self)).map fun queue =>
        { s with queue := queue, work := Function.update s.work self none }
    | _ => none
  | .abandon self =>
    (leaseStep (backfillLease W) s.queue (.abandon self)).map fun queue =>
      { s with queue := queue, work := Function.update s.work self none }

inductive BackfillStep (chain : List V) (maxAttempts : ℤ) (s : BackfillState W) :
    BackfillAction W V → BackfillState W → Prop where
  | enqueue (id now jobId : ℤ) (coinId dataset : String) (interval : Option String)
      (rangeStart rangeEnd : Option ℤ) (fresh : ∀ row ∈ s.queue.table, row.id ≠ id) :
      BackfillStep chain maxAttempts s
        (.enqueue id now jobId coinId dataset interval rangeStart rangeEnd)
        { s with queue := { s.queue with
          table := newRow id now (newChunk jobId coinId dataset interval rangeStart rangeEnd) ::
            s.queue.table } }
  | claim (self : W) (now leaseSecs : ℤ) (locked : List ℤ) (row : ChunkRow W)
      (hrow : row ∈ s.queue.table) (hidle : s.queue.holding self = none)
      (hclaimable : claimable now row) :
      BackfillStep chain maxAttempts s (.claim self row.id now leaseSecs locked)
        { s with
          queue := claimStep s.queue self row.id now leaseSecs row.attempts
          work := Function.update s.work self (some (.fetching row.payload)) }
  | heartbeat (self : W) (now leaseSecs : ℤ) (chunk : ChunkColumns) (c : OpenClaim)
      (hwork : s.work self = some (.fetching chunk)) (hholds : s.queue.holding self = some c) :
      BackfillStep chain maxAttempts s (.heartbeat self now leaseSecs)
        { s with queue := writeStep s.queue self c none (heartbeatRow now leaseSecs) }
  | page (self : W) (env : ChunkEnv V) (chunk : ChunkColumns) (c : OpenClaim)
      (hwork : s.work self = some (.fetching chunk)) (hholds : s.queue.holding self = some c) :
      BackfillStep chain maxAttempts s (.page self env)
        { s with
          work := Function.update s.work self
            (some (.finalizing chunk
              (finalizeWrites maxAttempts chunk (processChunk env chain chunk).outcome)))
          upserted := (processChunk env chain chunk).upserted ++ s.upserted
          asked := Function.update s.asked c.id
            ((processChunk env chain chunk).asked.toList ++ s.asked c.id) }
  | finalize (self : W) (chunk : ChunkColumns) (op : LeaseWrite) (rest : List LeaseWrite)
      (c : OpenClaim) (f : ChunkRow W → ChunkRow W)
      (hwork : s.work self = some (.finalizing chunk (op :: rest)))
      (hholds : s.queue.holding self = some c) (hf : (backfillLease W).effect op = some f) :
      BackfillStep chain maxAttempts s (.finalize self)
        (finalizeStep s self chunk rest c (writeStep s.queue self c op.event f))
  | refuse (self : W) (chunk : ChunkColumns) (op : LeaseWrite) (rest : List LeaseWrite)
      (hwork : s.work self = some (.finalizing chunk (op :: rest))) (hrest : rest ≠ []) :
      BackfillStep chain maxAttempts s (.refuse self)
        { s with work := Function.update s.work self (some (.finalizing chunk rest)) }
  | abandon (self : W) (a : BackfillAction W V) (ha : a = .refuse self ∨ a = .abandon self) :
      BackfillStep chain maxAttempts s a
        { s with
          queue := { s.queue with holding := Function.update s.queue.holding self none }
          work := Function.update s.work self none }

theorem backfillStep_sound {chain : List V} {maxAttempts : ℤ} {s t : BackfillState W}
    {a : BackfillAction W V} (hkeyed : s.queue.KeyedById)
    (h : backfillStep chain maxAttempts s a = some t) : BackfillStep chain maxAttempts s a t := by
  cases a with
  | enqueue id now jobId coinId dataset interval rangeStart rangeEnd =>
    obtain ⟨queue, hqueue, rfl⟩ := Option.map_eq_some_iff.mp h
    obtain ⟨hfresh, rfl⟩ := leaseStep_insert hqueue
    exact .enqueue id now jobId coinId dataset interval rangeStart rangeEnd hfresh
  | claim self id now leaseSecs locked =>
    obtain ⟨queue, hqueue, hmap⟩ := Option.bind_eq_some_iff.mp h
    obtain ⟨taken, htaken, rfl⟩ := Option.map_eq_some_iff.mp hmap
    have hkeyed' : queue.KeyedById := keyedById_preserved hkeyed hqueue
    obtain ⟨⟨other, hother, hotherId, hclaimable, -⟩, hidle, row, hrow, hid, rfl⟩ :=
      leaseStep_claim hqueue
    obtain rfl := hkeyed.eq_of_mem hother hrow (hotherId.trans hid.symm)
    have hclaimed : claimRow self now leaseSecs other ∈
        (claimStep s.queue self id now leaseSecs other.attempts).table :=
      mem_claimStep.mpr (Or.inl ⟨other, hrow, hid, rfl⟩)
    have htakenId : taken.id = id := by simpa using List.find?_some htaken
    obtain rfl := hkeyed'.eq_of_mem (List.mem_of_find?_eq_some htaken) hclaimed
      (htakenId.trans hid.symm)
    subst hid
    exact .claim self now leaseSecs locked other hrow hidle hclaimable
  | heartbeat self now leaseSecs =>
    simp only [backfillStep] at h
    split at h
    · rename_i chunk hwork
      obtain ⟨queue, hqueue, rfl⟩ := Option.map_eq_some_iff.mp h
      obtain ⟨c, f, hc, hf, rfl⟩ := leaseStep_write hqueue
      cases hf
      exact .heartbeat self now leaseSecs chunk c hwork hc
    · cases h
  | page self env =>
    simp only [backfillStep] at h
    split at h
    · rename_i chunk c hwork hc
      cases h
      exact .page self env chunk c hwork hc
    · cases h
  | finalize self =>
    simp only [backfillStep] at h
    split at h
    · rename_i chunk op rest c hwork hc
      obtain ⟨queue, hqueue, rfl⟩ := Option.map_eq_some_iff.mp h
      obtain ⟨c', f, hc', hf, rfl⟩ := leaseStep_write hqueue
      obtain rfl : c' = c := Option.some.inj (hc'.symm.trans hc)
      exact .finalize self chunk op rest c' f hwork hc' hf
    · cases h
  | refuse self =>
    simp only [backfillStep] at h
    split at h
    · rename_i chunk op' op rest hwork
      cases h
      exact .refuse self chunk op' (op :: rest) hwork (by simp)
    · obtain ⟨queue, hqueue, rfl⟩ := Option.map_eq_some_iff.mp h
      obtain rfl := leaseStep_abandon hqueue
      exact .abandon self _ (Or.inl rfl)
    · cases h
  | abandon self =>
    obtain ⟨queue, hqueue, rfl⟩ := Option.map_eq_some_iff.mp h
    obtain rfl := leaseStep_abandon hqueue
    exact .abandon self _ (Or.inr rfl)

end CryptoCollector.Collectors

import CryptoCollector.Collectors.Backfill
import CryptoCollector.Collectors.ClaimPacing
import CryptoCollector.Collectors.LeaseFencing

/-!
# The lease worker loop

`run_lease_worker` and the heartbeat tasks it spawns, on any number of replicas. The loop of
a replica, its heartbeat tasks, the shutdown channel and the statements of the others
interleave freely: between any two awaits anything may happen. A task that is told to stop
stops at its next turn, and a beat that is under way is finished first.
-/

namespace CryptoCollector.Collectors
open Foundations

/-- Writes of which the last one ends the claim, and no other. -/
def EndsClaim : List LeaseWrite → Prop
  | [] => False
  | [op] => op.event.isSome
  | op :: rest => op.event = none ∧ EndsClaim rest

/-- What a worker brings to the loop: the writes of its `finalize` and what follows them. -/
structure LeaseFinalizer (P R : Type*) where
  writes : P → R → List LeaseWrite
  outcome : R → LeaseCycleOutcome
  ends : ∀ item result, EndsClaim (writes item result)

def queueFinalizer (maxAttempts : ℤ) :
    LeaseFinalizer QueueColumns (Except DispatchError DispatchOutcome) where
  writes _ result := [queueWrite maxAttempts result]
  outcome := queueWorker.finalize
  ends _ result := by
    rcases result with ⟨_ | _⟩ | ⟨_ | _⟩ <;> rfl

def backfillFinalizer (maxAttempts : ℤ) :
    LeaseFinalizer ChunkColumns (Except DispatchError ChunkOutcome) where
  writes := finalizeWrites maxAttempts
  outcome := backfillWorker.finalize
  ends item result := by
    rcases result with (_ | _) | ⟨maxTs, secs⟩ | _
    · rfl
    · rfl
    · simp only [finalizeWrites]
      cases (nextCursorForPage (resumeStart item.cursor item.rangeStart) item.rangeEnd maxTs
        (max secs 1 * emptyPageSkipCandles)).1 <;> split_ifs <;> simp [EndsClaim, LeaseWrite.event]
    · rfl

/-- What a beat of the heartbeat came to. -/
inductive HeartbeatStep where
  | renewed
  | fencedOut
  | errored
  deriving DecidableEq, Repr

/-- A heartbeat task that has not ended: its stop signal was sent or its sender is gone, and
it is in the middle of a beat. -/
structure HeartbeatTask where
  stopped : Bool
  beating : Bool
  deriving DecidableEq, Repr

/-- Where the loop of a replica stands. After a panic its supervisor starts it again; a killed
process is gone. -/
inductive LoopPhase (P R : Type*) where
  | top
  | claiming
  | idle
  | working (c : OpenClaim) (item : P)
  | stopping (c : OpenClaim) (item : P) (result : R)
  | finalizing (c : OpenClaim) (writes : List LeaseWrite) (outcome : LeaseCycleOutcome)
  | pausing
  | ended
  | crashed
  | killed

/-- What a replica did, in the order it did it. -/
inductive LoopEvent where
  | checked
  | shutdownSet
  | claimed (c : OpenClaim)
  | orphaned
  | beat (c : OpenClaim) (step : HeartbeatStep)
  | joined (c : OpenClaim)
  | wrote (c : OpenClaim) (op : LeaseWrite)
  | refused (c : OpenClaim) (op : LeaseWrite)
  | panicked (c : OpenClaim)
  | killed (c : OpenClaim)
  deriving DecidableEq, Repr

/-- The loop of a replica, its heartbeat tasks by the claim they are for, the shutdown channel
and the log, newest first. -/
structure LeaseLoop (P R : Type*) where
  phase : LoopPhase P R
  tasks : OpenClaim → Option HeartbeatTask
  shutdown : Bool
  senderDropped : Bool
  log : List LoopEvent

def LeaseLoop.new {P R : Type*} : LeaseLoop P R := ⟨.top, fun _ => none, false, false, []⟩

/-- A step of one replica: of its loop, of a heartbeat task, or of the shutdown channel. -/
inductive LoopAction (R : Type*) where
  | check
  | claim (id now leaseSecs : ℤ) (locked : List ℤ) (answered : Bool)
  | noClaim
  | wake
  | breakLoop
  | workDone (result : R)
  | join
  | finalize (applied : Bool)
  | panic
  | kill
  | restart
  | tick (c : OpenClaim)
  | beat (c : OpenClaim) (now leaseSecs : ℤ) (step : HeartbeatStep) (applied : Bool)
  | observeStop (c : OpenClaim)
  | setShutdown
  | dropSender
  deriving DecidableEq, Repr

def LoopPhase.claim {P R : Type*} : LoopPhase P R → Option OpenClaim
  | .working c _ | .stopping c _ _ | .finalizing c _ _ => some c
  | .top | .claiming | .idle | .pausing | .ended | .crashed | .killed => none

def afterFinalize {P R : Type*} (c : OpenClaim) (outcome : LeaseCycleOutcome) :
    List LeaseWrite → LoopPhase P R
  | [] =>
    match outcome with
    | .continue => .top
    | .pauseBeforeNextClaim => .pausing
  | op :: rest => .finalizing c (op :: rest) outcome

section Steps

variable {W P R : Type*} [DecidableEq W]

/-- The row a beat of the claim renews, whoever's claim it is by now. -/
def beatStep (s : World W P) (self : W) (id now leaseSecs : ℤ) : World W P :=
  { s with table := updateWhere (ownedBy self id) (heartbeatRow now leaseSecs) s.table }

/-- The end of a run that did not finish its item. -/
def dropClaim (T : LeaseTable W P) (s : World W P) (self : W) : World W P :=
  (leaseStep T s (.abandon self)).getD s

/-- The stop signal of a task that may have ended. -/
def signalStop (tasks : OpenClaim → Option HeartbeatTask) (c : OpenClaim) :
    OpenClaim → Option HeartbeatTask :=
  Function.update tasks c ((tasks c).map fun task => { task with stopped := true })

/-- The claim of the loop, and the item it returned. -/
def claimItem (T : LeaseTable W P) (s : World W P) (self : W) (l : LeaseLoop P R)
    (id now leaseSecs : ℤ) (locked : List ℤ) (answered : Bool) :
    Option (World W P × LeaseLoop P R) :=
  (leaseStep T s (.claim self id now leaseSecs locked)).bind fun t =>
    if answered then
      (t.holding self).bind fun c => (t.table.find? fun row => row.id = c.id).map fun row =>
        (t, { l with
          phase := .working c row.payload
          tasks := Function.update l.tasks c (some ⟨false, false⟩)
          log := .claimed c :: l.log })
    else
      some (dropClaim T t self, { l with phase := .idle, log := .orphaned :: l.log })

/-- A write of `finalize`, or one the database did not take. -/
def finalizeWrite (T : LeaseTable W P) (s : World W P) (self : W) (l : LeaseLoop P R)
    (applied : Bool) (c : OpenClaim) (op : LeaseWrite) (rest : List LeaseWrite)
    (outcome : LeaseCycleOutcome) : Option (World W P × LeaseLoop P R) :=
  if applied then
    (leaseStep T s (.write self op)).map fun t =>
      (t, { l with phase := afterFinalize c outcome rest, log := .wrote c op :: l.log })
  else
    some (if op.event.isSome then dropClaim T s self else s,
      { l with phase := afterFinalize c outcome rest, log := .refused c op :: l.log })

def beatEnd (s : World W P) (self : W) (l : LeaseLoop P R) (c : OpenClaim) (now leaseSecs : ℤ)
    (stopped : Bool) (step : HeartbeatStep) (applied : Bool) :
    Option (World W P × LeaseLoop P R) :=
  let after (task : Option HeartbeatTask) : LeaseLoop P R :=
    { l with tasks := Function.update l.tasks c task, log := .beat c step :: l.log }
  match step with
  | .renewed =>
    if ∃ row ∈ s.table, ownedBy self c.id row then
      some (beatStep s self c.id now leaseSecs, after (some ⟨stopped, false⟩))
    else
      none
  | .fencedOut => if ∃ row ∈ s.table, ownedBy self c.id row then none else some (s, after none)
  | .errored =>
    some (if applied then beatStep s self c.id now leaseSecs else s, after (some ⟨stopped, false⟩))

/-- One step of a replica; `none` when it is not enabled. -/
def loopStep (T : LeaseTable W P) (worker : LeaseFinalizer P R) (s : World W P) (self : W)
    (l : LeaseLoop P R) : LoopAction R → Option (World W P × LeaseLoop P R)
  | .check =>
    match l.phase with
    | .top =>
      if l.shutdown then some (s, { l with phase := .ended })
      else some (s, { l with phase := .claiming, log := .checked :: l.log })
    | _ => none
  | .claim id now leaseSecs locked answered =>
    match l.phase with
    | .claiming => claimItem T s self l id now leaseSecs locked answered
    | _ => none
  | .noClaim =>
    match l.phase with
    | .claiming => some (s, { l with phase := .idle })
    | _ => none
  | .wake =>
    match l.phase with
    | .idle | .pausing => some (s, { l with phase := .top })
    | _ => none
  | .breakLoop =>
    match l.phase with
    | .idle | .pausing =>
      if l.senderDropped ∨ l.shutdown then some (s, { l with phase := .ended }) else none
    | _ => none
  | .workDone result =>
    match l.phase with
    | .working c item =>
      some (s, { l with phase := .stopping c item result, tasks := signalStop l.tasks c })
    | _ => none
  | .join =>
    match l.phase with
    | .stopping c item result =>
      if l.tasks c = none then
        some (s, { l with
          phase := .finalizing c (worker.writes item result) (worker.outcome result)
          log := .joined c :: l.log })
      else
        none
    | _ => none
  | .finalize applied =>
    match l.phase with
    | .finalizing c (op :: rest) outcome => finalizeWrite T s self l applied c op rest outcome
    | _ => none
  | .panic =>
    match l.phase with
    | .working c _ | .finalizing c _ _ =>
      some (dropClaim T s self, { l with
        phase := .crashed
        tasks := signalStop l.tasks c
        log := .panicked c :: l.log })
    | _ => none
  | .kill =>
    some (dropClaim T s self, { l with
      phase := .killed
      tasks := fun _ => none
      log := (l.phase.claim.map LoopEvent.killed).toList ++ l.log })
  | .restart =>
    match l.phase with
    | .crashed => some (s, { l with phase := if l.shutdown then .ended else .top })
    | _ => none
  | .tick c =>
    match l.tasks c with
    | some ⟨stopped, false⟩ =>
      some (s, { l with tasks := Function.update l.tasks c (some ⟨stopped, true⟩) })
    | _ => none
  | .beat c now leaseSecs step applied =>
    match l.tasks c with
    | some ⟨stopped, true⟩ => beatEnd s self l c now leaseSecs stopped step applied
    | _ => none
  | .observeStop c =>
    match l.tasks c with
    | some ⟨true, false⟩ => some (s, { l with tasks := Function.update l.tasks c none })
    | _ => none
  | .setShutdown =>
    if l.shutdown then none
    else some (s, { l with shutdown := true, log := .shutdownSet :: l.log })
  | .dropSender => some (s, { l with senderDropped := true })

structure LoopSystem (W P R : Type*) where
  world : World W P
  loops : W → LeaseLoop P R

def LoopSystem.empty : LoopSystem W P R := ⟨.empty, fun _ => .new⟩

/-- A step of a replica, or an insert by someone else. -/
inductive SystemAction (W P R : Type*) where
  | insert (id enqueuedAt : ℤ) (payload : P)
  | run (self : W) (a : LoopAction R)

def LoopSystem.step (T : LeaseTable W P) (worker : LeaseFinalizer P R) (s : LoopSystem W P R) :
    SystemAction W P R → Option (LoopSystem W P R)
  | .insert id enqueuedAt payload =>
    (leaseStep T s.world (.insert id enqueuedAt payload)).map fun world => { s with world := world }
  | .run self a =>
    (loopStep T worker s.world self (s.loops self) a).map fun next =>
      ⟨next.1, Function.update s.loops self next.2⟩

end Steps
end CryptoCollector.Collectors

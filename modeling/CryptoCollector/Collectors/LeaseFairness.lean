import CryptoCollector.Collectors.LeaseWorkers
import CryptoCollector.Foundations.Rotation

/-!
# Waiting rows of the leased queues

A claim takes the oldest claimable row, and a release leaves the row's age as it
is. Rows are served in turn as long as none that was claimed is claimable again
ahead of one that waits. A row that is released because its provider is cooling
down is, and the queue stands behind it.
-/

namespace CryptoCollector.Collectors
open Foundations

variable {W P : Type*}

def LeaseAction.claimed : LeaseAction W P → List ℤ
  | .claim _ id _ _ _ => [id]
  | _ => []

/-- A claim that finds the row `id` unlocked. -/
def claimFor (id : ℤ) : LeaseAction W P → Bool
  | .claim _ _ _ _ locked => id ∉ locked
  | _ => false

def pendingRows (s : World W P) : List ℤ :=
  (s.table.filter fun row => row.status = .pending).map LeaseRow.id

/-- While the row `id` waits, the rows a claim may take before it were pending when
the window began and have not been claimed in it. -/
def NoneReclaimed (population : List ℤ) (id : ℤ) (s : World W P × List ℤ) :
    LeaseAction W P → Prop
  | .claim _ _ now _ locked =>
    id ∉ s.2 → ∀ row ∈ s.1.table, row.id = id → ∀ other ∈ s.1.table, other.id ≠ id →
      claimable now other → other.id ∉ locked → other.enqueuedAt ≤ row.enqueuedAt →
        other.id ∈ population ∧ other.id ∉ s.2
  | _ => True

instance (population : List ℤ) (id : ℤ) (s : World W P × List ℤ) (a : LeaseAction W P) :
    Decidable (NoneReclaimed population id s a) :=
  match a with
  | .claim _ _ _ _ _ =>
    inferInstanceAs (Decidable (_ → ∀ row ∈ s.1.table, _ → ∀ other ∈ s.1.table, _))
  | .insert _ _ _ => inferInstanceAs (Decidable True)
  | .write _ _ => inferInstanceAs (Decidable True)
  | .abandon _ => inferInstanceAs (Decidable True)

def PendingUnowned (s : World W P) : Prop :=
  ∀ row ∈ s.table, row.status = .pending → row.claimedBy = none

/-- The row waits, unless it was claimed. -/
def WaitsOrClaimed (id : ℤ) (s : World W P × List ℤ) : Prop :=
  id ∉ s.2 → ∃ row ∈ s.1.table, row.id = id ∧ row.status = .pending

theorem claimable_of_pending {now : ℤ} {row : LeaseRow W P} (h : row.status = .pending) :
    claimable now row :=
  Or.inl h

theorem effect_pendingUnowned {T : LeaseTable W P} {op : LeaseWrite}
    {f : LeaseRow W P → LeaseRow W P} (hf : T.effect op = some f) {row : LeaseRow W P}
    (hrow : row.status ≠ .pending) (hpending : (f row).status = .pending) :
    (f row).claimedBy = none := by
  cases op with
  | heartbeat now leaseSecs =>
    cases hf
    exact absurd hpending hrow
  | advanceCursor cursor =>
    have hsame := LeaseTable.effect_of_event_none hf rfl row
    exact absurd (hsame.1 ▸ hpending) hrow
  | complete =>
    cases hf
    rw [T.complete_status row] at hpending
    cases hpending
  | release | failOrRetry maxAttempts err | failPermanent err =>
    cases hf
    rfl

variable [DecidableEq W] {T : LeaseTable W P} {s t : World W P} {a : LeaseAction W P}

theorem pendingUnowned_step (hs : PendingUnowned s) (h : leaseStep T s a = some t) :
    PendingUnowned t := by
  rcases leaseStep_cases h with ⟨id, enqueuedAt, payload, -, -, rfl⟩ |
    ⟨self, id, now, leaseSecs, locked, row, -, -, -, -, -, rfl⟩ |
    ⟨self, op, c, f, -, -, hf, rfl⟩ | ⟨self, -, rfl⟩
  · intro row hrow hpending
    rcases List.mem_cons.mp hrow with rfl | hrow
    · rfl
    · exact hs row hrow hpending
  · intro row hrow hpending
    rcases mem_claimStep.mp hrow with ⟨old, -, -, rfl⟩ | ⟨hold, -⟩
    · cases hpending
    · exact hs row hold hpending
  · intro row hrow hpending
    rcases mem_writeStep.mp hrow with ⟨old, hold, howned, rfl⟩ | ⟨hold, -⟩
    · refine effect_pendingUnowned hf ?_ hpending
      intro holdpending
      have hfree := hs old hold holdpending
      rw [howned.2] at hfree
      cases hfree
    · exact hs row hold hpending
  · exact hs

theorem pending_stays (hs : PendingUnowned s) (h : leaseStep T s a = some t)
    {row : LeaseRow W P} (hrow : row ∈ s.table) (hpending : row.status = .pending)
    (hnot : row.id ∉ a.claimed) : row ∈ t.table := by
  rcases leaseStep_cases h with ⟨id, enqueuedAt, payload, -, -, rfl⟩ |
    ⟨self, id, now, leaseSecs, locked, picked, rfl, -, -, -, -, rfl⟩ |
    ⟨self, op, c, f, -, -, hf, rfl⟩ | ⟨self, -, rfl⟩
  · exact List.mem_cons_of_mem _ hrow
  · refine mem_claimStep.mpr (Or.inr ⟨hrow, ?_⟩)
    intro hid
    exact hnot (List.mem_singleton.mpr hid)
  · refine mem_writeStep.mpr (Or.inr ⟨hrow, ?_⟩)
    rintro ⟨-, howned⟩
    rw [hs row hrow hpending] at howned
    cases howned
  · exact hrow

theorem waitsOrClaimed_step {id : ℤ} {log : List ℤ} (hs : PendingUnowned s)
    (hwaits : WaitsOrClaimed id (s, log)) (h : leaseStep T s a = some t) :
    WaitsOrClaimed id (t, log ++ a.claimed) := by
  intro hnot
  simp only [List.mem_append, not_or] at hnot
  obtain ⟨row, hrow, rfl, hpending⟩ := hwaits hnot.1
  exact ⟨row, pending_stays hs h hrow hpending hnot.2, rfl, hpending⟩

/-- A claim that leaves a waiting row out takes a fresh row ahead of it. -/
theorem servesFresh_of_leaseClaim {log : List ℤ} {population : List ℤ} {id : ℤ}
    (hwaits : WaitsOrClaimed id (s, log)) (hnone : NoneReclaimed population id (s, log) a)
    (h : leaseStep T s a = some t) (hround : claimFor id a = true) (hlog : id ∉ log)
    (hleft : id ∉ a.claimed) : ServesFresh LeaseAction.claimed population 1 log a := by
  cases a with
  | claim self picked now leaseSecs locked =>
    obtain ⟨⟨row, hrow, rfl, hclaimable, hunlocked, holdest⟩, -⟩ := leaseStep_claim h
    obtain ⟨waiting, hwaiting, rfl, hpending⟩ := hwaits hlog
    have hfree : waiting.id ∉ locked := by simpa [claimFor] using hround
    have hahead := holdest waiting hwaiting (claimable_of_pending hpending) hfree
    have hne : row.id ≠ waiting.id := fun heq => hleft (List.mem_singleton.mpr heq.symm)
    refine ⟨rfl, List.nodup_singleton _, ?_⟩
    intro y hy
    obtain rfl := List.mem_singleton.mp hy
    exact hnone hlog waiting hwaiting rfl row hrow hne hclaimable hunlocked hahead
  | insert newId enqueuedAt payload => cases hround
  | write self op => cases hround
  | abandon self => cases hround

/-- From any reachable state: a pending row is claimed within as many claims as
there are pending rows, unless a row is claimable again ahead of it. -/
theorem lease_queue_fair (T : LeaseTable W P) (before : List (LeaseAction W P)) (s t : World W P)
    (hreach : exec (leaseStep T) World.empty before = some s) (as : List (LeaseAction W P))
    (hrun : exec (leaseStep T) s as = some t) (id : ℤ) (hpending : id ∈ pendingRows s)
    (hnone : StepsMeet (logStep (leaseStep T) LeaseAction.claimed)
      (NoneReclaimed (pendingRows s) id) (s, []) as)
    (hclaims : (pendingRows s).length ≤ as.countP (claimFor id)) :
    id ∈ as.flatMap LeaseAction.claimed := by
  have hunowned : PendingUnowned s := by
    refine exec_invariant (fun _ _ _ => pendingUnowned_step) ?_ hreach
    intro row hrow
    cases hrow
  have hwaits : WaitsOrClaimed id (s, []) := by
    intro _
    obtain ⟨row, hrow, hid⟩ := List.mem_map.mp hpending
    rw [List.mem_filter, decide_eq_true_eq] at hrow
    exact ⟨row, hrow.1, hid, hrow.2⟩
  have hrotates : StepsMeet (logStep (leaseStep T) LeaseAction.claimed)
      (Rotates LeaseAction.claimed (claimFor id) (pendingRows s) 1 id) (s, []) as := by
    refine hnone.of_exec (I := fun u => PendingUnowned u.1 ∧ WaitsOrClaimed id u) ?_ ?_
      ⟨hunowned, hwaits⟩ (exec_logged hrun)
    · rintro ⟨u, log⟩ a v ⟨hu, hw⟩ - hstep
      obtain ⟨w, hw', rfl⟩ := Option.map_eq_some_iff.mp hstep
      exact ⟨pendingUnowned_step hu hw', waitsOrClaimed_step hu hw hw'⟩
    · rintro ⟨u, log⟩ a v ⟨-, hw⟩ hnonea hstep hround hlog hleft
      obtain ⟨w, hw', -⟩ := Option.map_eq_some_iff.mp hstep
      exact servesFresh_of_leaseClaim hw hnonea hw' hround hlog hleft
  exact served_of_rotates hrun hrotates hpending (by simpa using hclaims)

/-- One worker's turn at a row: it is claimed and then released. -/
def softSkip (id now : ℤ) : List (LeaseAction ℕ QueueColumns) :=
  [.claim 7 id now 120 [], .write 7 .release]

/-- A candles item and, behind it, a rollup item that needs no provider. -/
def twoItems : List (LeaseAction ℕ QueueColumns) :=
  [.insert 1 10 ⟨"coin", "bitcoin", "candles"⟩, .insert 2 20 ⟨"coin", "bitcoin", "rollup"⟩]

/-- The item ahead is done, then the other one is claimed. -/
theorem lease_queue_fair_after_completion :
    2 ∈ ([.claim 7 1 30 120 [], .write 7 .complete, .claim 7 2 40 120 []] :
      List (LeaseAction ℕ QueueColumns)).flatMap LeaseAction.claimed :=
  lease_queue_fair (queueLease ℕ) twoItems _ _ rfl _ rfl 2 (by decide) (by decide) (by decide)

/-- The candles item is released each time it is claimed, and the rollup item is not
claimed within two claims. -/
theorem lease_queue_starves : ¬∀ (before : List (LeaseAction ℕ QueueColumns))
    (s t : World ℕ QueueColumns), exec (leaseStep (queueLease ℕ)) World.empty before = some s →
      ∀ as, exec (leaseStep (queueLease ℕ)) s as = some t → ∀ id ∈ pendingRows s,
        (pendingRows s).length ≤ as.countP (claimFor id) →
          id ∈ as.flatMap LeaseAction.claimed := by
  intro h
  have hclaimed := h twoItems _ _ rfl (softSkip 1 30 ++ softSkip 1 40) rfl 2 (by decide)
    (by decide)
  revert hclaimed
  decide

end CryptoCollector.Collectors

import CryptoCollector.Collectors.LeaseLoopRuns

/-!
# Replicas that run the lease worker loop

What holds in every state the loops of all replicas reach: each keeps to its log, the table
is one the steps of lease workers lead to unless a panic left a heartbeat behind, and a loop
that is told to stop gets to its end.
-/

namespace CryptoCollector.Collectors
open Foundations

variable {W P R : Type*} [DecidableEq W] {T : LeaseTable W P} {worker : LeaseFinalizer P R}

theorem LeaseInvariant.beat {s : World W P} (hinv : LeaseInvariant s) (self : W)
    (id now leaseSecs : ℤ) : LeaseInvariant (beatStep s self id now leaseSecs) where
  keyed := Keyed.updateWhere (fun _ _ => rfl) hinv.keyed
  held := by
    intro other c hc row hrow howned
    rcases mem_updateWhere.mp hrow with ⟨old, hold, -, rfl⟩ | ⟨hold, -⟩
    · exact hinv.held other c hc old hold howned
    · exact hinv.held other c hc row hold howned

/-- A beat for the claim in hand is the heartbeat of a lease worker. -/
theorem beatStep_eq_heartbeat (T : LeaseTable W P) {s : World W P} {self : W} {c : OpenClaim}
    (hc : s.holding self = some c) (now leaseSecs : ℤ) :
    leaseStep T s (.write self (.heartbeat now leaseSecs)) =
      some (beatStep s self c.id now leaseSecs) := by
  simp [leaseStep, hc, LeaseTable.effect, LeaseWrite.event, writeStep, beatStep]

theorem TableStep.leases {self : W} {l : LeaseLoop P R} {s t : World W P}
    (hstep : TableStep T self l s t) (hinv : LeaseInvariant s) : LeaseInvariant t := by
  rcases hstep with ⟨as, hrun⟩ | ⟨c, task, now, leaseSecs, -, rfl⟩
  · exact exec_invariant (fun _ _ _ h hnext => h.preserved hnext) hinv hrun
  · exact hinv.beat self c.id now leaseSecs

/-- Without a panic a replica does to the table what a lease worker does. -/
theorem TableStep.run {self : W} {l : LeaseLoop P R} {s t : World W P}
    (hstep : TableStep T self l s t) (hkept : LoopKept s self l)
    (hcalm : ∀ c, .panicked c ∉ l.log) : ∃ as, exec (leaseStep T) s as = some t := by
  rcases hstep with hrun | ⟨c, task, now, leaseSecs, htask, rfl⟩
  · exact hrun
  · have hholding : s.holding self = some c := by
      rcases (hkept.tasks c task htask).owner with ⟨⟨item, hphase⟩, -⟩ |
        ⟨⟨item, result, hphase⟩, -⟩ | ⟨hpanicked, -⟩
      · exact hkept.holding.trans (by rw [hphase]; rfl)
      · exact hkept.holding.trans (by rw [hphase]; rfl)
      · exact absurd hpanicked (hcalm c)
    exact ⟨[.write self (.heartbeat now leaseSecs)],
      (exec_cons_eq_some _).mpr ⟨_, beatStep_eq_heartbeat T hholding now leaseSecs, rfl⟩⟩

theorem LoopLogged.mem {l l' : LeaseLoop P R} (h : LoopLogged l l') {event : LoopEvent}
    (hmem : event ∈ l.log) : event ∈ l'.log := by
  cases h with
  | quiet events hlog =>
    rw [hlog]
    exact List.mem_append_right _ hmem
  | claim event' hlog =>
    rw [hlog]
    exact List.mem_cons_of_mem _ hmem
  | shutdown hlog =>
    rw [hlog]
    exact List.mem_cons_of_mem _ hmem

/-- What the replicas keep to together. -/
structure SystemKept (T : LeaseTable W P) (s : LoopSystem W P R) : Prop where
  loops : ∀ w, LoopKept s.world w (s.loops w)
  oneLeft : ∀ w, OneClaimLeft (s.loops w)
  leases : LeaseInvariant s.world
  table : (∀ w c, .panicked c ∉ (s.loops w).log) →
    ∃ as, exec (leaseStep T) World.empty as = some s.world

theorem SystemKept.empty (T : LeaseTable W P) : SystemKept T (.empty : LoopSystem W P R) where
  loops w := LoopKept.new w
  oneLeft w := by
    intro hset
    cases hset
  leases := LeaseInvariant.empty
  table _ := ⟨[], rfl⟩

theorem SystemKept.step {s t : LoopSystem W P R} (h : SystemKept T s) {a : SystemAction W P R}
    (hstep : LoopSystem.step T worker s a = some t) : SystemKept T t := by
  cases a with
  | insert id enqueuedAt payload =>
    obtain ⟨world, hinsert, rfl⟩ := Option.map_eq_some_iff.mp hstep
    refine ⟨?_, h.oneLeft, h.leases.preserved hinsert, ?_⟩
    · obtain ⟨-, rfl⟩ := leaseStep_insert hinsert
      intro w
      exact (h.loops w).of_holding rfl fun _ => le_rfl
    · intro hcalm
      obtain ⟨as, has⟩ := h.table hcalm
      exact ⟨as ++ [.insert id enqueuedAt payload], (exec_append_eq_some _).mpr
        ⟨s.world, has, (exec_cons_eq_some _).mpr ⟨world, hinsert, rfl⟩⟩⟩
  | run self a =>
    obtain ⟨⟨world, l'⟩, hloop, rfl⟩ := Option.map_eq_some_iff.mp hstep
    obtain ⟨hkept, hframe, htable⟩ := loopStep_kept (h.loops self) hloop
    have hlogged := loopStep_logged hloop
    refine ⟨?_, ?_, htable.leases h.leases, ?_⟩
    · intro w
      by_cases hw : w = self
      · subst hw
        simpa using hkept
      · simpa [Function.update_of_ne hw] using (h.loops w).frame hframe hw
    · intro w
      by_cases hw : w = self
      · subst hw
        simpa using (h.oneLeft w).step hlogged
      · simpa [Function.update_of_ne hw] using h.oneLeft w
    · intro hcalm
      have hbefore : ∀ w c, .panicked c ∉ (s.loops w).log := by
        intro w c hmem
        refine hcalm w c ?_
        by_cases hw : w = self
        · subst hw
          simpa using hlogged.mem hmem
        · simpa [Function.update_of_ne hw] using hmem
      obtain ⟨as, has⟩ := h.table hbefore
      obtain ⟨more, hmore⟩ := htable.run (h.loops self) (hbefore self)
      exact ⟨as ++ more, (exec_append_eq_some _).mpr ⟨s.world, has, hmore⟩⟩

theorem SystemKept.of_run {s : LoopSystem W P R} {as : List (SystemAction W P R)}
    (hrun : exec (LoopSystem.step T worker) .empty as = some s) : SystemKept T s :=
  exec_invariant (fun _ _ _ h hstep => h.step hstep) (SystemKept.empty T) hrun

/-- Every replica keeps to its log: a claim is open or has its one end, and a heartbeat task is
for the item in hand and not yet joined, or was left by a panic and told to stop. -/
theorem lease_loop_disciplined {s : LoopSystem W P R} {as : List (SystemAction W P R)}
    (hrun : exec (LoopSystem.step T worker) .empty as = some s) (w : W) :
    Disciplined (s.loops w).log ∧
      (∀ c, .claimed c ∈ (s.loops w).log →
        (s.loops w).log.countP (endsClaim c) = if (s.loops w).phase.claim = some c then 0 else 1) ∧
      ∀ c task, (s.loops w).tasks c = some task →
        (s.loops w).phase.claim = some c ∧ .joined c ∉ (s.loops w).log ∨
          .panicked c ∈ (s.loops w).log ∧ task.stopped = true := by
  have hkept := (SystemKept.of_run hrun).loops w
  refine ⟨hkept.disciplined, ?_, ?_⟩
  · intro c hc
    rw [hkept.disciplined.ends_once c, hkept.opened]
    by_cases hopen : (s.loops w).phase.claim = some c <;> simp [hc, hopen]
  · intro c task htask
    have htaskKept := hkept.tasks c task htask
    by_cases hopen : (s.loops w).phase.claim = some c
    · exact Or.inl ⟨hopen, htaskKept.unjoined⟩
    · exact Or.inr (htaskKept.detached hopen)

/-- The row is as finished as `row`, and no claim of it came since `s`. -/
def FinishedKept (s t : World W P) (row : LeaseRow W P) : Prop :=
  ∃ row' ∈ t.table, row'.id = row.id ∧ row'.status = row.status ∧ row'.attempts = row.attempts ∧
    row'.payload = row.payload ∧ t.claimCount row.id = s.claimCount row.id

theorem FinishedKept.run {s t u : World W P} {row : LeaseRow W P} {as : List (LeaseAction W P)}
    (h : FinishedKept s t row) (hinv : LeaseInvariant t) (hterminal : row.status.terminal)
    (hrun : exec (leaseStep T) t as = some u) : FinishedKept s u row := by
  obtain ⟨row', hrow', hid, hstatus, hattempts, hpayload, hcount⟩ := h
  obtain ⟨hmem, hsame⟩ := hinv.outcomesFinal as u hrun row' hrow' (hstatus ▸ hterminal)
  exact ⟨row', hmem, hid, hstatus, hattempts, hpayload, by rw [← hid, hsame, hid, hcount]⟩

theorem TableStep.finished {self : W} {l : LeaseLoop P R} {s t u : World W P} {row : LeaseRow W P}
    (hstep : TableStep T self l t u) (hinv : LeaseInvariant t) (hterminal : row.status.terminal)
    (h : FinishedKept s t row) : FinishedKept s u row := by
  rcases hstep with ⟨as, hrun⟩ | ⟨c, task, now, leaseSecs, -, rfl⟩
  · exact h.run hinv hterminal hrun
  · obtain ⟨row', hrow', hid, hstatus, hattempts, hpayload, hcount⟩ := h
    by_cases howned : ownedBy self c.id row'
    · exact ⟨_, mem_updateWhere.mpr (Or.inl ⟨row', hrow', howned, rfl⟩), hid, hstatus, hattempts,
        hpayload, hcount⟩
    · exact ⟨row', mem_updateWhere.mpr (Or.inr ⟨hrow', howned⟩), hid, hstatus, hattempts,
        hpayload, hcount⟩

theorem finished_of_run {s t : LoopSystem W P R} {more : List (SystemAction W P R)}
    (h : SystemKept T s) (hmore : exec (LoopSystem.step T worker) s more = some t)
    {row : LeaseRow W P} (hrow : row ∈ s.world.table) (hterminal : row.status.terminal) :
    FinishedKept s.world t.world row := by
  have hfirst : FinishedKept s.world s.world row := ⟨row, hrow, rfl, rfl, rfl, rfl, rfl⟩
  refine (exec_invariant (I := fun u => SystemKept T u ∧ FinishedKept s.world u.world row) ?_
    ⟨h, hfirst⟩ hmore).2
  intro u a v hu hstep
  refine ⟨hu.1.step hstep, ?_⟩
  cases a with
  | insert id enqueuedAt payload =>
    obtain ⟨world, hinsert, rfl⟩ := Option.map_eq_some_iff.mp hstep
    have hrun : exec (leaseStep T) u.world [.insert id enqueuedAt payload] = some world :=
      (exec_cons_eq_some _).mpr ⟨world, hinsert, rfl⟩
    exact hu.2.run hu.1.leases hterminal hrun
  | run self a =>
    obtain ⟨⟨world, l'⟩, hloop, rfl⟩ := Option.map_eq_some_iff.mp hstep
    obtain ⟨-, -, htable⟩ := loopStep_kept (hu.1.loops self) hloop
    exact htable.finished hu.1.leases hterminal hu.2

/-- The writes of the loops stay fenced, what is finished stays so, and without a panic the
table is one that the steps of lease workers lead to. -/
theorem lease_loop_refines {s : LoopSystem W P R} {as : List (SystemAction W P R)}
    (hrun : exec (LoopSystem.step T worker) .empty as = some s) :
    (∀ w, s.world.holding w = (s.loops w).phase.claim) ∧ WritesFenced T s.world ∧
      (∀ more t, exec (LoopSystem.step T worker) s more = some t →
        ∀ row ∈ s.world.table, row.status.terminal → FinishedKept s.world t.world row) ∧
      ((∀ w c, .panicked c ∉ (s.loops w).log) →
        ∃ steps, exec (leaseStep T) World.empty steps = some s.world) := by
  have hkept := SystemKept.of_run hrun
  refine ⟨fun w => (hkept.loops w).holding, hkept.leases.writesFenced, ?_, hkept.table⟩
  intro more t hmore row hrow hterminal
  exact finished_of_run hkept hmore hrow hterminal

def LoopAction.own : LoopAction R → Bool
  | .check | .claim _ _ _ _ _ | .noClaim | .wake | .breakLoop | .workDone _ | .join | .finalize _
  | .panic | .restart => true
  | .kill | .tick _ | .beat _ _ _ _ _ | .observeStop _ | .setShutdown | .dropSender => false

/-- Where a step of its own takes the loop. -/
inductive PhaseMoved (worker : LeaseFinalizer P R) (shutdown : Bool) :
    LoopPhase P R → LoopPhase P R → Prop where
  | checked (h : shutdown = false) : PhaseMoved worker shutdown .top .claiming
  | stopped (h : shutdown = true) : PhaseMoved worker shutdown .top .ended
  | claimed (c : OpenClaim) (item : P) : PhaseMoved worker shutdown .claiming (.working c item)
  | unclaimed : PhaseMoved worker shutdown .claiming .idle
  | woken {phase : LoopPhase P R} (h : phase = .idle ∨ phase = .pausing) :
      PhaseMoved worker shutdown phase .top
  | broken {phase : LoopPhase P R} (h : phase = .idle ∨ phase = .pausing) :
      PhaseMoved worker shutdown phase .ended
  | worked (c : OpenClaim) (item : P) (result : R) :
      PhaseMoved worker shutdown (.working c item) (.stopping c item result)
  | joined (c : OpenClaim) (item : P) (result : R) :
      PhaseMoved worker shutdown (.stopping c item result)
        (.finalizing c (worker.writes item result) (worker.outcome result))
  | wrote (c : OpenClaim) (op : LeaseWrite) (rest : List LeaseWrite)
      (outcome : LeaseCycleOutcome) :
      PhaseMoved worker shutdown (.finalizing c (op :: rest) outcome)
        (afterFinalize c outcome rest)
  | panicked {phase : LoopPhase P R} {c : OpenClaim} (h : phase.claim = some c) :
      PhaseMoved worker shutdown phase .crashed
  | restarted (h : shutdown = false) : PhaseMoved worker shutdown .crashed .top
  | notRestarted (h : shutdown = true) : PhaseMoved worker shutdown .crashed .ended

section Draining

variable {s t : World W P} {self : W} {l l' : LeaseLoop P R} {n : ℕ}

theorem loopStep_moved {a : LoopAction R} (hown : a.own = true)
    (hstep : loopStep T worker s self l a = some (t, l')) :
    l'.shutdown = l.shutdown ∧ PhaseMoved worker l.shutdown l.phase l'.phase := by
  cases a with
  | claim id now leaseSecs locked answered =>
    simp only [loopStep] at hstep
    split at hstep
    · next hphase =>
      rw [hphase]
      obtain ⟨u, -, hrest⟩ := Option.bind_eq_some_iff.mp hstep
      split_ifs at hrest
      · obtain ⟨c, -, hrow⟩ := Option.bind_eq_some_iff.mp hrest
        obtain ⟨row, -, hnext⟩ := Option.map_eq_some_iff.mp hrow
        obtain ⟨rfl, rfl⟩ := Prod.mk.inj hnext
        exact ⟨rfl, .claimed c row.payload⟩
      · obtain ⟨rfl, rfl⟩ := Prod.mk.inj (Option.some.inj hrest)
        exact ⟨rfl, .unclaimed⟩
    · cases hstep
  | finalize applied =>
    simp only [loopStep] at hstep
    split at hstep
    · next c op rest outcome hphase =>
      rw [hphase]
      unfold finalizeWrite at hstep
      split_ifs at hstep
      · obtain ⟨u, -, hnext⟩ := Option.map_eq_some_iff.mp hstep
        obtain ⟨rfl, rfl⟩ := Prod.mk.inj hnext
        exact ⟨rfl, .wrote c op rest outcome⟩
      all_goals
        obtain ⟨rfl, rfl⟩ := Prod.mk.inj (Option.some.inj hstep)
        exact ⟨rfl, .wrote c op rest outcome⟩
    · cases hstep
  | check =>
    simp only [loopStep] at hstep
    split at hstep
    · next hphase =>
      rw [hphase]
      split_ifs at hstep with hset
      · obtain ⟨rfl, rfl⟩ := Prod.mk.inj (Option.some.inj hstep)
        exact ⟨rfl, .stopped hset⟩
      · obtain ⟨rfl, rfl⟩ := Prod.mk.inj (Option.some.inj hstep)
        exact ⟨rfl, .checked (by simpa using hset)⟩
    · cases hstep
  | noClaim =>
    simp only [loopStep] at hstep
    split at hstep
    · next hphase =>
      rw [hphase]
      obtain ⟨rfl, rfl⟩ := Prod.mk.inj (Option.some.inj hstep)
      exact ⟨rfl, .unclaimed⟩
    · cases hstep
  | wake =>
    simp only [loopStep] at hstep
    split at hstep
    · next hphase =>
      obtain ⟨rfl, rfl⟩ := Prod.mk.inj (Option.some.inj hstep)
      exact ⟨rfl, .woken (Or.inl hphase)⟩
    · next hphase =>
      obtain ⟨rfl, rfl⟩ := Prod.mk.inj (Option.some.inj hstep)
      exact ⟨rfl, .woken (Or.inr hphase)⟩
    · cases hstep
  | breakLoop =>
    simp only [loopStep] at hstep
    split at hstep
    · next hphase =>
      split_ifs at hstep
      obtain ⟨rfl, rfl⟩ := Prod.mk.inj (Option.some.inj hstep)
      exact ⟨rfl, .broken (Or.inl hphase)⟩
    · next hphase =>
      split_ifs at hstep
      obtain ⟨rfl, rfl⟩ := Prod.mk.inj (Option.some.inj hstep)
      exact ⟨rfl, .broken (Or.inr hphase)⟩
    · cases hstep
  | workDone result =>
    simp only [loopStep] at hstep
    split at hstep
    · next c item hphase =>
      rw [hphase]
      obtain ⟨rfl, rfl⟩ := Prod.mk.inj (Option.some.inj hstep)
      exact ⟨rfl, .worked c item result⟩
    · cases hstep
  | join =>
    simp only [loopStep] at hstep
    split at hstep
    · next c item result hphase =>
      rw [hphase]
      split_ifs at hstep
      obtain ⟨rfl, rfl⟩ := Prod.mk.inj (Option.some.inj hstep)
      exact ⟨rfl, .joined c item result⟩
    · cases hstep
  | panic =>
    simp only [loopStep] at hstep
    split at hstep
    · next c item hphase =>
      obtain ⟨rfl, rfl⟩ := Prod.mk.inj (Option.some.inj hstep)
      exact ⟨rfl, .panicked (c := c) (by rw [hphase]; rfl)⟩
    · next c writes outcome hphase =>
      obtain ⟨rfl, rfl⟩ := Prod.mk.inj (Option.some.inj hstep)
      exact ⟨rfl, .panicked (c := c) (by rw [hphase]; rfl)⟩
    · cases hstep
  | restart =>
    simp only [loopStep] at hstep
    split at hstep
    · next hphase =>
      rw [hphase]
      obtain ⟨rfl, rfl⟩ := Prod.mk.inj (Option.some.inj hstep)
      refine ⟨rfl, ?_⟩
      split_ifs with hset
      · exact .notRestarted hset
      · exact .restarted (by simpa using hset)
    · cases hstep
  | kill | tick c | beat c now leaseSecs step applied | observeStop c | setShutdown | dropSender =>
    cases hown

theorem loopStep_unmoved {a : LoopAction R} (hown : a.own = false)
    (hstep : loopStep T worker s self l a = some (t, l')) :
    (l.shutdown = true → l'.shutdown = true) ∧ (l'.phase = l.phase ∨ l'.phase = .killed) := by
  cases a with
  | kill =>
    obtain ⟨rfl, rfl⟩ := Prod.mk.inj (Option.some.inj hstep)
    exact ⟨id, Or.inr rfl⟩
  | tick c | observeStop c =>
    simp only [loopStep] at hstep
    split at hstep
    · obtain ⟨rfl, rfl⟩ := Prod.mk.inj (Option.some.inj hstep)
      exact ⟨id, Or.inl rfl⟩
    · cases hstep
  | beat c now leaseSecs step applied =>
    simp only [loopStep] at hstep
    split at hstep
    · cases step with
      | renewed | fencedOut =>
        simp only [beatEnd] at hstep
        split_ifs at hstep
        obtain ⟨rfl, rfl⟩ := Prod.mk.inj (Option.some.inj hstep)
        exact ⟨id, Or.inl rfl⟩
      | errored =>
        obtain ⟨rfl, rfl⟩ := Prod.mk.inj (Option.some.inj hstep)
        exact ⟨id, Or.inl rfl⟩
    · cases hstep
  | setShutdown =>
    simp only [loopStep] at hstep
    split_ifs at hstep
    obtain ⟨rfl, rfl⟩ := Prod.mk.inj (Option.some.inj hstep)
    exact ⟨fun _ => rfl, Or.inl rfl⟩
  | dropSender =>
    obtain ⟨rfl, rfl⟩ := Prod.mk.inj (Option.some.inj hstep)
    exact ⟨id, Or.inl rfl⟩
  | check | claim id now leaseSecs locked answered | noClaim | wake | breakLoop | workDone result
  | join | finalize applied | panic | restart => cases hown

/-- The steps of its own a loop has left once it is told to stop, when an item takes `n` writes. -/
def LoopPhase.stepsLeft (n : ℕ) : LoopPhase P R → ℕ
  | .ended | .killed => 0
  | .top | .crashed => 1
  | .idle | .pausing => 2
  | .finalizing _ writes _ => writes.length + 2
  | .stopping _ _ _ => n + 3
  | .working _ _ => n + 4
  | .claiming => n + 5

theorem stepsLeft_pos_of_claim {phase : LoopPhase P R} {c : OpenClaim} (h : phase.claim = some c) :
    2 ≤ phase.stepsLeft n := by
  cases phase with
  | working c' item | stopping c' item result | finalizing c' writes outcome =>
    simp only [LoopPhase.stepsLeft]
    omega
  | top | claiming | idle | pausing | ended | crashed | killed => cases h

theorem stepsLeft_afterFinalize (c : OpenClaim) (outcome : LeaseCycleOutcome)
    (rest : List LeaseWrite) :
    (afterFinalize c outcome rest : LoopPhase P R).stepsLeft n ≤ rest.length + 2 := by
  cases rest with
  | nil => cases outcome <;> simp [afterFinalize, LoopPhase.stepsLeft]
  | cons op rest => exact le_rfl

theorem PhaseMoved.stepsLeft {phase phase' : LoopPhase P R}
    (h : PhaseMoved worker true phase phase')
    (hwrites : ∀ item result, (worker.writes item result).length ≤ n) :
    phase'.stepsLeft n + 1 ≤ phase.stepsLeft n := by
  cases h with
  | checked hset | restarted hset => cases hset
  | stopped | claimed | unclaimed | worked | notRestarted =>
    simp only [LoopPhase.stepsLeft]
    omega
  | woken hphase | broken hphase =>
    rcases hphase with rfl | rfl <;> simp [LoopPhase.stepsLeft]
  | joined c item result =>
    exact Nat.add_le_add_right (Nat.add_le_add_right (hwrites item result) 2) 1
  | wrote c op rest outcome =>
    have hafter := stepsLeft_afterFinalize (P := P) (R := R) (n := n) c outcome rest
    have hlength : (op :: rest).length = rest.length + 1 := List.length_cons
    change _ ≤ (op :: rest).length + 2
    omega
  | panicked hclaim => exact stepsLeft_pos_of_claim hclaim

/-- The writes still to come are within `n`. -/
def WritesWithin (n : ℕ) (phase : LoopPhase P R) : Prop :=
  ∀ c writes outcome, phase = .finalizing c writes outcome → writes.length ≤ n

theorem PhaseMoved.writesWithin {shutdown : Bool} {phase phase' : LoopPhase P R}
    (h : PhaseMoved worker shutdown phase phase')
    (hwrites : ∀ item result, (worker.writes item result).length ≤ n)
    (hbefore : WritesWithin n phase) : WritesWithin n phase' := by
  cases h with
  | joined c item result =>
    intro c' writes outcome hphase
    obtain ⟨-, rfl, -⟩ := LoopPhase.finalizing.inj hphase
    exact hwrites item result
  | wrote c op rest outcome =>
    have hlength := hbefore c (op :: rest) outcome rfl
    intro c' writes outcome' hphase
    cases rest with
    | nil => cases outcome <;> cases hphase
    | cons next rest =>
      obtain ⟨-, rfl, -⟩ := LoopPhase.finalizing.inj hphase
      exact (Nat.le_succ _).trans hlength
  | checked | stopped | claimed | unclaimed | woken | broken | worked | panicked | restarted
  | notRestarted =>
    intro c' writes outcome' hphase
    cases hphase

theorem stepsLeft_le {phase : LoopPhase P R} (h : WritesWithin n phase) :
    phase.stepsLeft n ≤ n + 5 := by
  cases phase with
  | finalizing c writes outcome =>
    have hlength := h c writes outcome rfl
    simp only [LoopPhase.stepsLeft]
    omega
  | top | claiming | idle | working c item | stopping c item result | pausing | ended | crashed
  | killed =>
    simp only [LoopPhase.stepsLeft]
    omega

theorem loopStep_writesWithin {a : LoopAction R}
    (hwrites : ∀ item result, (worker.writes item result).length ≤ n)
    (hbefore : WritesWithin n l.phase) (hstep : loopStep T worker s self l a = some (t, l')) :
    WritesWithin n l'.phase := by
  cases hown : a.own with
  | true => exact (loopStep_moved hown hstep).2.writesWithin hwrites hbefore
  | false =>
    rcases (loopStep_unmoved hown hstep).2 with hsame | hkilled
    · exact hsame ▸ hbefore
    · rw [hkilled]
      intro c writes outcome hphase
      cases hphase

theorem loopStep_stepsLeft {a : LoopAction R}
    (hwrites : ∀ item result, (worker.writes item result).length ≤ n) (hset : l.shutdown = true)
    (hstep : loopStep T worker s self l a = some (t, l')) :
    l'.shutdown = true ∧ l'.phase.stepsLeft n + (if a.own then 1 else 0) ≤ l.phase.stepsLeft n := by
  cases hown : a.own with
  | true =>
    obtain ⟨hshutdown, hmoved⟩ := loopStep_moved hown hstep
    rw [hset] at hmoved
    exact ⟨hshutdown.trans hset, hmoved.stepsLeft hwrites⟩
  | false =>
    obtain ⟨hshutdown, hphase⟩ := loopStep_unmoved hown hstep
    refine ⟨hshutdown hset, ?_⟩
    rcases hphase with hsame | hkilled
    · rw [hsame]
      exact le_rfl
    · rw [hkilled]
      exact Nat.zero_le _

/-- An unfinished loop is never stuck: it has a step of its own, or its heartbeat has one. -/
theorem LoopKept.goes_on [Nonempty R] (h : LoopKept s self l) (T : LeaseTable W P)
    (worker : LeaseFinalizer P R) :
    l.phase = .ended ∨ l.phase = .killed ∨ ∃ a : LoopAction R,
      (a.own = true ∨ ∃ c, l.phase.claim = some c ∧ (a = .observeStop c ∨
        ∃ now leaseSecs step applied, a = .beat c now leaseSecs step applied)) ∧
      (loopStep T worker s self l a).isSome = true := by
  obtain ⟨result⟩ := ‹Nonempty R›
  cases hphase : l.phase with
  | ended => exact Or.inl rfl
  | killed => exact Or.inr (Or.inl rfl)
  | top =>
    refine Or.inr (Or.inr ⟨.check, Or.inl rfl, ?_⟩)
    simp only [loopStep, hphase]
    split_ifs <;> rfl
  | claiming => exact Or.inr (Or.inr ⟨.noClaim, Or.inl rfl, by simp [loopStep, hphase]⟩)
  | idle | pausing => exact Or.inr (Or.inr ⟨.wake, Or.inl rfl, by simp [loopStep, hphase]⟩)
  | crashed => exact Or.inr (Or.inr ⟨.restart, Or.inl rfl, by simp [loopStep, hphase]⟩)
  | working c item =>
    exact Or.inr (Or.inr ⟨.workDone result, Or.inl rfl, by simp [loopStep, hphase]⟩)
  | finalizing c writes outcome =>
    cases writes with
    | nil => exact absurd (h.finalizing c [] outcome hphase).1 id
    | cons op rest =>
      exact Or.inr (Or.inr ⟨.finalize false, Or.inl rfl,
        by simp [loopStep, hphase, finalizeWrite]⟩)
  | stopping c item done =>
    cases htask : l.tasks c with
    | none => exact Or.inr (Or.inr ⟨.join, Or.inl rfl, by simp [loopStep, hphase, htask]⟩)
    | some task =>
      obtain ⟨stopped, beating⟩ := task
      have hstopped : stopped = true := by
        rcases (h.tasks c _ htask).owner with ⟨⟨item', hworking⟩, -⟩ | ⟨-, hstop⟩ | ⟨-, hstop⟩
        · rw [hphase] at hworking
          cases hworking
        · exact hstop
        · exact hstop
      subst hstopped
      cases beating with
      | false =>
        exact Or.inr (Or.inr ⟨.observeStop c, Or.inr ⟨c, rfl, Or.inl rfl⟩,
          by simp [loopStep, htask]⟩)
      | true =>
        exact Or.inr (Or.inr ⟨.beat c 0 0 .errored false,
          Or.inr ⟨c, rfl, Or.inr ⟨0, 0, .errored, false, rfl⟩⟩,
          by simp [loopStep, htask, beatEnd]⟩)

end Draining

def SystemAction.ownOf (w : W) : SystemAction W P R → Bool
  | .insert _ _ _ => false
  | .run w' a => w' = w && a.own

section System

variable {s t : LoopSystem W P R} {n : ℕ}

theorem writesWithin_of_run {as : List (SystemAction W P R)}
    (hwrites : ∀ item result, (worker.writes item result).length ≤ n)
    (hrun : exec (LoopSystem.step T worker) .empty as = some s) (w : W) :
    WritesWithin n (s.loops w).phase := by
  refine exec_invariant (I := fun u => ∀ w, WritesWithin n (u.loops w).phase) ?_ ?_ hrun w
  · intro u a v hu hstep w
    cases a with
    | insert id enqueuedAt payload =>
      obtain ⟨world, -, rfl⟩ := Option.map_eq_some_iff.mp hstep
      exact hu w
    | run self a =>
      obtain ⟨⟨world, l'⟩, hloop, rfl⟩ := Option.map_eq_some_iff.mp hstep
      by_cases hw : w = self
      · subst hw
        simpa using loopStep_writesWithin hwrites (hu w) hloop
      · simpa [Function.update_of_ne hw] using hu w
  · intro w c writes outcome hphase
    cases hphase

theorem step_stepsLeft {a : SystemAction W P R} {w : W}
    (hwrites : ∀ item result, (worker.writes item result).length ≤ n)
    (hset : (s.loops w).shutdown = true) (hstep : LoopSystem.step T worker s a = some t) :
    (t.loops w).shutdown = true ∧ (t.loops w).phase.stepsLeft n + (if a.ownOf w then 1 else 0) ≤
      (s.loops w).phase.stepsLeft n := by
  cases a with
  | insert id enqueuedAt payload =>
    obtain ⟨world, -, rfl⟩ := Option.map_eq_some_iff.mp hstep
    exact ⟨hset, le_rfl⟩
  | run self a =>
    obtain ⟨⟨world, l'⟩, hloop, rfl⟩ := Option.map_eq_some_iff.mp hstep
    by_cases hw : self = w
    · subst hw
      simpa [SystemAction.ownOf] using loopStep_stepsLeft hwrites hset hloop
    · simp [SystemAction.ownOf, hw, Function.update_of_ne (Ne.symm hw), hset]

theorem ownSteps_le {more : List (SystemAction W P R)} {w : W}
    (hwrites : ∀ item result, (worker.writes item result).length ≤ n)
    (hrun : exec (LoopSystem.step T worker) s more = some t)
    (hset : (s.loops w).shutdown = true) :
    (t.loops w).shutdown = true ∧ (t.loops w).phase.stepsLeft n +
      more.countP (SystemAction.ownOf w) ≤ (s.loops w).phase.stepsLeft n := by
  have hstill : ∀ (s : LoopSystem W P R) a t, (s.loops w).shutdown = true →
      LoopSystem.step T worker s a = some t → (t.loops w).shutdown = true :=
    fun _ _ _ hset hstep => (step_stepsLeft hwrites hset hstep).1
  have hcount := exec_countP_le (fun s => (s.loops w).phase.stepsLeft n) (SystemAction.ownOf w)
    (fun _ => false) 0 hstill (fun _ _ _ hset hstep => (step_stepsLeft hwrites hset hstep).2)
    hset hrun
  rw [Nat.zero_mul, Nat.add_zero] at hcount
  exact ⟨exec_invariant hstill hset hrun, hcount⟩

/-- A loop that is told to stop makes at most one more claim and at most `n + 5` more steps, is
never stuck before its end, and ends with nothing in hand. -/
theorem lease_loop_drains [Nonempty R] {as more : List (SystemAction W P R)}
    (hwrites : ∀ item result, (worker.writes item result).length ≤ n)
    (hrun : exec (LoopSystem.step T worker) .empty as = some s)
    (hmore : exec (LoopSystem.step T worker) s more = some t) (w : W)
    (hset : (s.loops w).shutdown = true) :
    claimsSinceShutdown (t.loops w).log ≤ 1 ∧ more.countP (SystemAction.ownOf w) ≤ n + 5 ∧
      ((t.loops w).phase = .ended ∧ t.world.holding w = none ∨ (t.loops w).phase = .killed ∨
        ∃ a : LoopAction R, (a.own = true ∨ ∃ c, (t.loops w).phase.claim = some c ∧
          (a = .observeStop c ∨
            ∃ now leaseSecs step applied, a = .beat c now leaseSecs step applied)) ∧
          (LoopSystem.step T worker t (.run w a)).isSome = true) := by
  have hreached : exec (LoopSystem.step T worker) .empty (as ++ more) = some t :=
    (exec_append_eq_some _).mpr ⟨s, hrun, hmore⟩
  have hkept := SystemKept.of_run hreached
  obtain ⟨hstill, hsteps⟩ := ownSteps_le hwrites hmore hset
  refine ⟨?_, ?_, ?_⟩
  · exact (Nat.le_add_right _ _).trans (hkept.oneLeft w hstill)
  · have hfirst := stepsLeft_le (writesWithin_of_run hwrites hrun w)
    omega
  · rcases (hkept.loops w).goes_on T worker with hended | hkilled | ⟨a, ha, hnext⟩
    · exact Or.inl ⟨hended, (hkept.loops w).holding.trans (by rw [hended]; rfl)⟩
    · exact Or.inr (Or.inl hkilled)
    · exact Or.inr (Or.inr ⟨a, ha, by simpa [LoopSystem.step] using hnext⟩)

end System

abbrev QueueAction := SystemAction ℕ QueueColumns (Except DispatchError DispatchOutcome)

abbrev queueSystemStep := LoopSystem.step (queueLease ℕ) (queueFinalizer 5)

/-- Replica 7 is told to stop while it works on an item, after its heartbeat renewed the lease
once. -/
def stoppedRun : List QueueAction :=
  [.insert 1 0 ⟨"coin", "bitcoin", "candles"⟩, .run 7 .check, .run 7 (.claim 1 0 10 [] true),
    .run 7 (.tick ⟨1, 1, 0⟩), .run 7 (.beat ⟨1, 1, 0⟩ 5 10 .renewed true), .run 7 .setShutdown]

def drainedRun : List QueueAction :=
  [.run 7 (.workDone (.ok .done)), .run 7 (.observeStop ⟨1, 1, 0⟩), .run 7 .join,
    .run 7 (.finalize true), .run 7 .check]

theorem stoppedRun_enabled : (exec queueSystemStep .empty stoppedRun).isSome := by decide +kernel

theorem drainedRun_enabled :
    (exec queueSystemStep ((exec queueSystemStep .empty stoppedRun).get stoppedRun_enabled)
      drainedRun).isSome := by decide +kernel

theorem stoppedRun_shutdown :
    (((exec queueSystemStep .empty stoppedRun).get stoppedRun_enabled).loops 7).shutdown =
      true := by
  decide +kernel

theorem lease_loop_drains_last_item :
    claimsSinceShutdown (((exec queueSystemStep ((exec queueSystemStep .empty stoppedRun).get
      stoppedRun_enabled) drainedRun).get drainedRun_enabled).loops 7).log ≤ 1 ∧
      drainedRun.countP (SystemAction.ownOf 7) ≤ 6 :=
  have : Nonempty (Except DispatchError DispatchOutcome) := ⟨.ok .done⟩
  have h := lease_loop_drains (n := 1) (fun _ _ => le_rfl)
    (Option.some_get stoppedRun_enabled).symm (Option.some_get drainedRun_enabled).symm 7
    stoppedRun_shutdown
  ⟨h.1, h.2.1⟩

/-- Replica 7 panics in its work, its heartbeat beats on, and 8 completes the item later. -/
def panickedRun : List QueueAction :=
  [.insert 1 0 ⟨"coin", "bitcoin", "candles"⟩, .run 7 .check, .run 7 (.claim 1 0 10 [] true),
    .run 7 (.tick ⟨1, 1, 0⟩), .run 7 .panic, .run 7 (.beat ⟨1, 1, 0⟩ 5 10 .renewed true),
    .run 7 .restart, .run 8 .check, .run 8 (.claim 1 11000000000 10 [] true),
    .run 8 (.workDone (.ok .done)), .run 8 (.observeStop ⟨1, 2, 1⟩), .run 8 .join,
    .run 8 (.finalize true)]

theorem panickedRun_enabled : (exec queueSystemStep .empty panickedRun).isSome := by decide +kernel

theorem lease_loop_disciplined_panic :
    Disciplined (((exec queueSystemStep .empty panickedRun).get panickedRun_enabled).loops 7).log :=
  (lease_loop_disciplined (Option.some_get panickedRun_enabled).symm 7).1

theorem lease_loop_refines_panic :
    WritesFenced (queueLease ℕ)
      ((exec queueSystemStep .empty panickedRun).get panickedRun_enabled).world :=
  (lease_loop_refines (Option.some_get panickedRun_enabled).symm).2.1

end CryptoCollector.Collectors

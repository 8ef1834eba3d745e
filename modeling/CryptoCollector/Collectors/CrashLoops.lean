import CryptoCollector.Collectors.LeaseWorkers

/-!
# Crash loops

A worker that dies after its claim leaves the row to expire, and the next claim
takes it over. Only the failure statement compares `attempts` with the limit;
the claim does not, so a row that keeps killing its workers is claimed for ever.
-/

namespace CryptoCollector.Collectors
open Foundations

/-- One row under claims and crashes: whether its current claim has a live
worker, and how many claims have ended without an outcome. -/
structure CrashState (W P : Type*) where
  row : LeaseRow W P
  alive : Bool
  ended : ℕ
  deriving DecidableEq, Repr

inductive CrashAction (W : Type*) where
  | claim (self : W) (now leaseSecs : ℤ)
  | crash
  deriving DecidableEq, Repr

variable {W P : Type*}

/-- One step; a claim of a row whose worker is alive supersedes it. -/
def crashStep (s : CrashState W P) : CrashAction W → Option (CrashState W P)
  | .claim self now leaseSecs =>
    if claimable now s.row then
      some ⟨claimRow self now leaseSecs s.row, true, if s.alive then s.ended + 1 else s.ended⟩
    else
      none
  | .crash => if s.alive then some ⟨s.row, false, s.ended + 1⟩ else none

def CrashState.fresh (id enqueuedAt : ℤ) (payload : P) : CrashState W P :=
  ⟨newRow id enqueuedAt payload, false, 0⟩

/-- The bound the retry budget promises: attempts within the limit, and no
further claim once that many claims have ended without success. -/
def CrashLoopBounded (maxAttempts : ℤ) (s : CrashState W P) : Prop :=
  s.row.attempts ≤ maxAttempts ∧ (maxAttempts ≤ s.ended → ∀ now, ¬claimable now s.row)

/-- What holds along claims and crashes: every claim counted, and the row always
open to a later claim. -/
structure CrashInvariant (s : CrashState W P) : Prop where
  attempts : s.row.attempts = s.ended + if s.alive then 1 else 0
  reclaimable : ∃ now, claimable now s.row

theorem CrashInvariant.fresh (id enqueuedAt : ℤ) (payload : P) :
    CrashInvariant (CrashState.fresh id enqueuedAt payload : CrashState W P) where
  attempts := by simp [CrashState.fresh, newRow]
  reclaimable := ⟨0, Or.inl rfl⟩

theorem claimable_after_lease (self : W) (now leaseSecs : ℤ) (row : LeaseRow W P) :
    claimable (now + DateTime.seconds leaseSecs + 1) (claimRow self now leaseSecs row) :=
  Or.inr ⟨Or.inl rfl, _, rfl, by omega⟩

/-- A claim adds one attempt and settles the claim before it; a crash settles
the open claim. -/
theorem crashStep_counts {s t : CrashState W P} {a : CrashAction W} (hinv : CrashInvariant s)
    (h : crashStep s a = some t) :
    CrashInvariant t ∧ (t.ended : ℤ) = s.row.attempts ∧
      (t.row.attempts = s.row.attempts + 1 ∨ t.row.attempts = s.row.attempts) := by
  have hattempts := hinv.attempts
  cases a with
  | claim self now leaseSecs =>
    simp only [crashStep] at h
    split_ifs at h with hclaim halive
    · obtain rfl := Option.some.inj h
      simp only [halive, if_pos] at hattempts
      refine ⟨⟨?_, _, claimable_after_lease self now leaseSecs s.row⟩, ?_, Or.inl rfl⟩
      · simp [claimRow, hattempts]
      · simp [hattempts]
    · obtain rfl := Option.some.inj h
      simp only [halive, Bool.false_eq_true, if_false, add_zero] at hattempts
      refine ⟨⟨?_, _, claimable_after_lease self now leaseSecs s.row⟩, ?_, Or.inl rfl⟩
      · simp [claimRow, hattempts]
      · simp [hattempts]
  | crash =>
    simp only [crashStep] at h
    split_ifs at h with halive
    obtain rfl := Option.some.inj h
    simp only [halive, if_pos] at hattempts
    refine ⟨⟨?_, hinv.reclaimable⟩, ?_, Or.inr rfl⟩
    · simp [hattempts]
    · simp [hattempts]

theorem crashLoopBounded_iff {s : CrashState W P} (hinv : CrashInvariant s) (maxAttempts : ℤ) :
    CrashLoopBounded maxAttempts s ↔ s.row.attempts ≤ maxAttempts ∧ s.ended < maxAttempts := by
  obtain ⟨now, hnow⟩ := hinv.reclaimable
  unfold CrashLoopBounded
  constructor
  · rintro ⟨hle, hclosed⟩
    refine ⟨hle, ?_⟩
    by_contra hended
    exact hclosed (by omega) now hnow
  · rintro ⟨hle, hended⟩
    refine ⟨hle, ?_⟩
    intro hge
    omega

/-- After a step the bound holds exactly when the step found attempts below the
limit. -/
theorem crashStep_bounded_iff {s t : CrashState W P} {a : CrashAction W}
    (hinv : CrashInvariant s) (h : crashStep s a = some t) (maxAttempts : ℤ) :
    CrashLoopBounded maxAttempts t ↔ s.row.attempts < maxAttempts := by
  obtain ⟨hnext, hended, hattempts⟩ := crashStep_counts hinv h
  rw [crashLoopBounded_iff hnext]
  omega

theorem everyReached_bounded_iff {s t : CrashState W P} {as : List (CrashAction W)}
    (hinv : CrashInvariant s) (hrun : exec crashStep s as = some t) (maxAttempts : ℤ) :
    EveryReached crashStep (CrashLoopBounded maxAttempts) s as ↔
      CrashLoopBounded maxAttempts s ∧
        StepsMeet crashStep (fun s _ => s.row.attempts < maxAttempts) s as := by
  induction as generalizing s with
  | nil => simp [everyReached_nil, StepsMeet]
  | cons a as ih =>
    obtain ⟨u, hu, hrest⟩ := (exec_cons_eq_some crashStep).mp hrun
    have hstep := crashStep_bounded_iff hinv hu maxAttempts
    have htail := ih (crashStep_counts hinv hu).1 hrest
    simp only [everyReached_cons, StepsMeet, hu, Option.some.injEq, forall_eq', htail, hstep]

section Workers

variable [DecidableEq W]

/-- The one row of a table, with whether some worker holds its newest claim. -/
structure CrashView (s : World W P) (v : CrashState W P) : Prop where
  table : s.table = [v.row]
  alive : v.alive = true ↔ ∃ self c, s.holding self = some c ∧ c.number = s.claimCount v.row.id
  holders : ∀ self c, s.holding self = some c → c.number ≤ s.claimCount v.row.id
  newest : ∀ self self' c c', s.holding self = some c → s.holding self' = some c' →
    c.number = s.claimCount v.row.id → c'.number = s.claimCount v.row.id → self = self'

/-- A claim or the end of a worker, in the lease system. -/
def LeaseAction.claimOrAbandon : LeaseAction W P → Prop
  | .claim _ _ _ _ _ => True
  | .abandon _ => True
  | .insert _ _ _ => False
  | .write _ _ => False

theorem CrashView.claim {s : World W P} {v : CrashState W P} (hview : CrashView s v)
    {self : W} {now leaseSecs : ℤ} {locked : List ℤ}
    (hcandidate : claimCandidate s.table now locked v.row.id) :
    ∃ v', crashStep v (.claim self now leaseSecs) = some v' ∧
      CrashView (claimStep s self v.row.id now leaseSecs v.row.attempts) v' := by
  obtain ⟨row, hrow, -, hclaimable, -⟩ := hcandidate
  obtain rfl : row = v.row := by simpa [hview.table] using hrow
  refine ⟨_, if_pos hclaimable, ?_, ?_, ?_, ?_⟩
  · simp [claimStep, hview.table, updateWhere]
  · simp only [true_iff]
    exact ⟨self, ⟨v.row.id, s.claimCount v.row.id + 1, v.row.attempts⟩, by simp [claimStep],
      by simp [claimStep, World.claimCount, claimRow]⟩
  · intro self' c hc
    have hcount : (claimStep s self v.row.id now leaseSecs v.row.attempts).claimCount v.row.id =
      s.claimCount v.row.id + 1 := by simp [claimStep, World.claimCount]
    simp only [claimRow, hcount]
    by_cases hself : self' = self
    · subst hself
      obtain rfl : c = ⟨v.row.id, s.claimCount v.row.id + 1, v.row.attempts⟩ := by
        simpa [claimStep] using hc.symm
      exact le_rfl
    · have hold := hview.holders self' c
        (by simpa [claimStep, Function.update_of_ne hself] using hc)
      omega
  · have hnewest : ∀ self' c,
        (claimStep s self v.row.id now leaseSecs v.row.attempts).holding self' = some c →
        c.number = (claimStep s self v.row.id now leaseSecs v.row.attempts).claimCount
          v.row.id → self' = self := by
      intro self' c hc hnumber
      by_contra hself
      have hold := hview.holders self' c
        (by simpa [claimStep, Function.update_of_ne hself] using hc)
      simp [claimStep, World.claimCount] at hnumber hold
      omega
    intro self₁ self₂ c₁ c₂ h₁ h₂ hn₁ hn₂
    exact (hnewest self₁ c₁ h₁ hn₁).trans (hnewest self₂ c₂ h₂ hn₂).symm

theorem CrashView.abandon {s : World W P} {v : CrashState W P} (hview : CrashView s v)
    (self : W) :
    ∃ as v', exec crashStep v as = some v' ∧
      CrashView { s with holding := Function.update s.holding self none } v' := by
  have hheld : ∀ self' c, Function.update s.holding self none self' = some c →
      self' ≠ self ∧ s.holding self' = some c := by
    intro self' c hc
    by_cases hself : self' = self
    · subst hself
      simp at hc
    · exact ⟨hself, by simpa [Function.update_of_ne hself] using hc⟩
  by_cases hcurrent : ∃ c, s.holding self = some c ∧ c.number = s.claimCount v.row.id
  · obtain ⟨c, hc, hnumber⟩ := hcurrent
    have halive : v.alive = true := hview.alive.mpr ⟨self, c, hc, hnumber⟩
    refine ⟨[.crash], ⟨v.row, false, v.ended + 1⟩, by simp [exec, crashStep, halive], ?_⟩
    refine ⟨hview.table, ?_, ?_, ?_⟩
    · simp only [Bool.false_eq_true, false_iff]
      rintro ⟨self', c', hc', hnumber'⟩
      have hother := hheld self' c' hc'
      exact hother.1 (hview.newest self' self c' c hother.2 hc hnumber' hnumber)
    · intro self' c' hc'
      exact hview.holders self' c' (hheld self' c' hc').2
    · intro self₁ self₂ c₁ c₂ h₁ h₂
      exact hview.newest self₁ self₂ c₁ c₂ (hheld self₁ c₁ h₁).2 (hheld self₂ c₂ h₂).2
  · refine ⟨[], v, rfl, hview.table, ?_, ?_, ?_⟩
    · rw [hview.alive]
      constructor
      · rintro ⟨self', c, hc, hnumber⟩
        have hself : self' ≠ self := by
          rintro rfl
          exact hcurrent ⟨c, hc, hnumber⟩
        exact ⟨self', c, by simpa [Function.update_of_ne hself] using hc, hnumber⟩
      · rintro ⟨self', c, hc, hnumber⟩
        exact ⟨self', c, (hheld self' c hc).2, hnumber⟩
    · intro self' c' hc'
      exact hview.holders self' c' (hheld self' c' hc').2
    · intro self₁ self₂ c₁ c₂ h₁ h₂
      exact hview.newest self₁ self₂ c₁ c₂ (hheld self₁ c₁ h₁).2 (hheld self₂ c₂ h₂).2

/-- Workers that only claim and die take a one-row table through a run of claims
and crashes of its row. -/
theorem crashRun_of_workers {T : LeaseTable W P} {s t : World W P} {v : CrashState W P}
    {as : List (LeaseAction W P)} (hview : CrashView s v)
    (honly : ∀ a ∈ as, a.claimOrAbandon) (hrun : exec (leaseStep T) s as = some t) :
    ∃ bs v', exec crashStep v bs = some v' ∧ CrashView t v' := by
  refine exec_simulates (P := LeaseAction.claimOrAbandon) ?_ hview honly hrun
  intro s v a t hview ha h
  rcases leaseStep_cases h with ⟨id, enqueuedAt, payload, rfl, -⟩ |
    ⟨self, id, now, leaseSecs, locked, row, -, hcandidate, -, hrow, rfl, rfl⟩ |
    ⟨self, op, c, f, rfl, -⟩ | ⟨self, -, rfl⟩
  · exact False.elim ha
  · obtain rfl : row = v.row := by simpa [hview.table] using hrow
    obtain ⟨v', hv', hnext⟩ := hview.claim hcandidate
    exact ⟨[_], v', (exec_cons_eq_some _).mpr ⟨v', hv', rfl⟩, hnext⟩
  · exact False.elim ha
  · exact hview.abandon self

end Workers

/-- Claims and crashes of one row, of either queue, stay within the limit in
every state reached exactly when the limit is positive and no claim or crash of
the run finds attempts at the limit already. -/
theorem crash_loop_bounded_iff (id enqueuedAt : ℤ) (payload : P) (maxAttempts : ℤ)
    {as : List (CrashAction W)} {t : CrashState W P}
    (hrun : exec crashStep (CrashState.fresh id enqueuedAt payload) as = some t) :
    EveryReached crashStep (CrashLoopBounded maxAttempts)
        (CrashState.fresh id enqueuedAt payload) as ↔
      0 < maxAttempts ∧
        StepsMeet crashStep (fun s _ => s.row.attempts < maxAttempts)
          (CrashState.fresh id enqueuedAt payload) as := by
  have hinv := CrashInvariant.fresh (W := W) id enqueuedAt payload
  rw [everyReached_bounded_iff hinv hrun, crashLoopBounded_iff hinv]
  simp only [CrashState.fresh, newRow, CharP.cast_eq_zero]
  constructor
  · rintro ⟨⟨-, hpos⟩, hmeet⟩
    exact ⟨hpos, hmeet⟩
  · rintro ⟨hpos, hmeet⟩
    exact ⟨⟨hpos.le, hpos⟩, hmeet⟩

/-- A chunk as a startup backfill enqueues it. -/
def crashLoopChunk : CrashState ℕ ChunkColumns :=
  .fresh 1 0 ⟨1, "bitcoin", "candles", some "1d", some 0, some 864000000000000, none⟩

/-- Five workers claim the chunk and die; a sixth claims it once more. -/
def crashLoopRun : List (CrashAction ℕ) :=
  [.claim 1 0 10, .crash, .claim 2 20000000000 10, .crash, .claim 3 40000000000 10, .crash,
    .claim 4 60000000000 10, .crash, .claim 5 80000000000 10, .crash, .claim 6 100000000000 10]

theorem crashLoopRun_enabled : (exec crashStep crashLoopChunk crashLoopRun).isSome := by decide

/-- With the default limit of five the sixth claim succeeds. -/
theorem crash_loop_unbounded :
    ∃ t, exec crashStep crashLoopChunk crashLoopRun = some t ∧ ¬CrashLoopBounded 5 t := by
  refine ⟨_, (Option.some_get crashLoopRun_enabled).symm, ?_⟩
  intro hbounded
  exact absurd hbounded.1 (by decide)

/-- One claim and one crash stay within a limit of two. -/
theorem crash_loop_bounded_one_crash :
    EveryReached crashStep (CrashLoopBounded 2) crashLoopChunk [.claim 1 0 10, .crash] :=
  have hrun : (exec crashStep crashLoopChunk [.claim 1 0 10, .crash]).isSome := by decide
  (crash_loop_bounded_iff _ _ _ 2 (Option.some_get hrun).symm).mpr
    ⟨by decide, by simp [StepsMeet, crashStep, CrashState.fresh, newRow, claimRow, claimable]⟩

end CryptoCollector.Collectors

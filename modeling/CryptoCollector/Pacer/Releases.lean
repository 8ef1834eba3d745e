import CryptoCollector.Pacer

/-!
# The instants grants are released at

A granted slot is a reserved `next_allowed_at`. The replica then reads its own
clock, asks `sleep_plan` how long to sleep, and sleeps at least that long. The
plan counts whole milliseconds, so what is left of the wait below a millisecond
is not slept; `overslept` is how much longer than asked the sleep lasted.
-/

namespace CryptoCollector.Pacer
open Foundations DateTime

/-- One grant after its reservation: the slot, the replica's reading of the clock,
and the time slept beyond what was asked for. -/
structure Grant where
  nextAt : ℤ
  readAt : ℤ
  overslept : ℕ
  deriving DecidableEq, Repr

/-- The wait `acquire_slot` asks for. -/
def Grant.asked (g : Grant) : ℤ := milliseconds (sleepPlan g.nextAt g.readAt).1

/-- The instant `acquire_slot` returns `Ok`. -/
def Grant.release (g : Grant) : ℤ := g.readAt + g.asked + g.overslept

/-- What is left of a wait below a whole millisecond. -/
def Grant.remainder (g : Grant) : ℤ :=
  if g.nextAt ≤ g.readAt then 0 else (g.nextAt - g.readAt) % milliseconds 1

/-- How far behind its slot a late reading and a long sleep put a grant, less the
remainder of its wait. -/
def Grant.lag (g : Grant) : ℤ := max 0 (g.readAt - g.nextAt) + g.overslept - g.remainder

/-- No grant is released before its slot, and any two are released `gap` apart. -/
def ReleasesRespect (gap : ℤ) (grants : List Grant) : Prop :=
  (∀ g ∈ grants, g.nextAt ≤ g.release) ∧
    grants.Pairwise fun newer older => gap ≤ |newer.release - older.release|

/-- The room between two slots beyond the gap. -/
def spare (gap : ℤ) (newer older : Grant) : ℤ := newer.nextAt - (older.nextAt + gap)

/-- Every remainder is made up by the sleep, and an earlier grant lags behind a
later one by no more than the spare room between their slots, or by so much that it
comes a whole gap after it. -/
def LagsFit (gap : ℤ) (grants : List Grant) : Prop :=
  (∀ g ∈ grants, g.remainder ≤ g.overslept) ∧
    grants.Pairwise fun newer older =>
      older.lag - newer.lag ≤ spare gap newer older ∨
        spare gap newer older + 2 * gap ≤ older.lag - newer.lag

instance (gap : ℤ) (grants : List Grant) : Decidable (ReleasesRespect gap grants) :=
  inferInstanceAs (Decidable (_ ∧ _))

instance (gap : ℤ) (grants : List Grant) : Decidable (LagsFit gap grants) :=
  inferInstanceAs (Decidable (_ ∧ _))

theorem sleepPlan_wait (nextAt now : ℤ) :
    milliseconds (sleepPlan nextAt now).1 =
      if nextAt ≤ now then 0 else nextAt - now - (nextAt - now) % milliseconds 1 := by
  unfold milliseconds
  by_cases hle : nextAt ≤ now
  · have hpast : 0 ≤ (now - nextAt).tdiv 1000000 := Int.tdiv_nonneg (by omega) (by decide)
    have hms : (nextAt - now).tdiv 1000000 ≤ 0 := by
      rw [← neg_sub now nextAt, Int.neg_tdiv]
      omega
    simp [sleepPlan, hms, hle]
  · have hdiv : (nextAt - now).tdiv 1000000 = (nextAt - now) / 1000000 :=
      Int.tdiv_eq_ediv_of_nonneg (by omega)
    rw [if_neg hle, sleepPlan, hdiv]
    by_cases hms : (nextAt - now) / 1000000 ≤ 0
    · simp only [if_pos hms]
      omega
    · simp only [if_neg hms]
      omega

theorem Grant.release_eq (g : Grant) : g.release = g.nextAt + g.lag := by
  unfold Grant.release Grant.asked Grant.lag Grant.remainder
  rw [sleepPlan_wait]
  split_ifs with hle
  · omega
  · omega

/-- A grant is released on time exactly when its sleep makes up the remainder. -/
theorem Grant.nextAt_le_release_iff (g : Grant) :
    g.nextAt ≤ g.release ↔ g.remainder ≤ g.overslept := by
  rw [Grant.release_eq]
  unfold Grant.lag Grant.remainder
  split_ifs with hle
  · omega
  · omega

theorem le_abs_release_sub_iff (gap : ℤ) (newer older : Grant) :
    gap ≤ |newer.release - older.release| ↔
      older.lag - newer.lag ≤ spare gap newer older ∨
        spare gap newer older + 2 * gap ≤ older.lag - newer.lag := by
  rw [le_abs, newer.release_eq, older.release_eq]
  unfold spare
  constructor
  · rintro (h | h)
    · exact Or.inl (by omega)
    · exact Or.inr (by omega)
  · rintro (h | h)
    · exact Or.inl (by omega)
    · exact Or.inr (by omega)

theorem releasesRespect_iff (gap : ℤ) (grants : List Grant) :
    ReleasesRespect gap grants ↔ LagsFit gap grants := by
  unfold ReleasesRespect LagsFit
  simp only [Grant.nextAt_le_release_iff, le_abs_release_sub_iff]

theorem pairwise_of_isChain_gap {gap : ℤ} (hgap : 0 ≤ gap) {slots : List ℤ}
    (hchain : slots.IsChain fun newer older => older + gap ≤ newer) :
    slots.Pairwise fun newer older => older + gap ≤ newer := by
  have htrans : IsTrans ℤ fun newer older => older + gap ≤ newer :=
    ⟨fun a b c hab hbc => by omega⟩
  exact List.isChain_iff_pairwise.mp hchain

/-- The grants of a run, newest first, with any readings and sleeps. -/
def GrantsOf (t : PacerState) (grants : List Grant) : Prop :=
  grants.map Grant.nextAt = reservations t.log

instance (t : PacerState) (grants : List Grant) : Decidable (GrantsOf t grants) :=
  inferInstanceAs (Decidable (_ = _))

theorem GrantsOf.spaced {s t : PacerState} {statements : List PacerStatement}
    {grants : List Grant} (hseed : Seeded s) (hrun : exec step s statements = some t)
    (hgrants : GrantsOf t grants) (hgap : 0 ≤ s.row.minGapMs) :
    grants.Pairwise fun newer older => 0 ≤ spare (milliseconds s.row.minGapMs) newer older := by
  have hchain := (PacerInvariant.of_run hseed hrun).spaced
  rw [(RowAdvances.of_run hrun).minGapMs, ← hgrants] at hchain
  have hpos : 0 ≤ milliseconds s.row.minGapMs := by
    unfold milliseconds
    omega
  have hpairs := List.pairwise_map.mp (pairwise_of_isChain_gap hpos hchain)
  refine hpairs.imp ?_
  intro newer older h
  unfold spare
  omega

/-- Grants that read the clock before their slot, wait whole milliseconds and sleep
no longer than asked are released at their slots. -/
theorem ReleasesRespect.of_whole_waits {s t : PacerState} {statements : List PacerStatement}
    {grants : List Grant} (hseed : Seeded s) (hrun : exec step s statements = some t)
    (hgrants : GrantsOf t grants) (hgap : 0 ≤ s.row.minGapMs)
    (hprompt : ∀ g ∈ grants, g.readAt ≤ g.nextAt)
    (hwhole : ∀ g ∈ grants, milliseconds 1 ∣ g.nextAt - g.readAt)
    (hexact : ∀ g ∈ grants, g.overslept = 0) :
    ReleasesRespect (milliseconds s.row.minGapMs) grants := by
  have hrem : ∀ g ∈ grants, g.remainder = 0 := by
    intro g hg
    unfold Grant.remainder
    split_ifs
    · rfl
    · exact Int.emod_eq_zero_of_dvd (hwhole g hg)
  have hlag : ∀ g ∈ grants, g.lag = 0 := by
    intro g hg
    have hread := hprompt g hg
    unfold Grant.lag
    rw [hrem g hg, hexact g hg]
    omega
  rw [releasesRespect_iff]
  refine ⟨?_, ?_⟩
  · intro g hg
    rw [hrem g hg]
    omega
  · refine (hgrants.spaced hseed hrun hgap).imp_of_mem ?_
    intro newer older hnewer holder hspare
    rw [hlag newer hnewer, hlag older holder]
    exact Or.inl (by omega)

/-- When `acquire_slot` keeps to its reservations: one wait for every sleep it
may turn into, and the grants of a run with the sleeps they had. -/
theorem acquireSlot_respects_iff {s t : PacerState} {statements : List PacerStatement}
    (hseed : Seeded s) (hrun : exec step s statements = some t) :
    (∀ provider diagnosed nextAt now, ∃ wait,
        acquireOutcome provider (some nextAt) diagnosed now = .ok wait ∧
          ((∀ slept, milliseconds wait ≤ slept → nextAt ≤ now + slept) ↔
            nextAt ≤ now ∨ milliseconds 1 ∣ nextAt - now)) ∧
      ∀ grants, GrantsOf t grants →
        (ReleasesRespect (milliseconds s.row.minGapMs) grants ↔
            LagsFit (milliseconds s.row.minGapMs) grants) ∧
          (0 ≤ s.row.minGapMs → grants.Pairwise fun newer older =>
            0 ≤ spare (milliseconds s.row.minGapMs) newer older) := by
  refine ⟨?_, fun grants hgrants => ⟨releasesRespect_iff _ grants, hgrants.spaced hseed hrun⟩⟩
  intro provider diagnosed nextAt now
  refine ⟨_, rfl, ?_⟩
  rw [sleepPlan_wait]
  constructor
  · intro h
    have hexact := h _ le_rfl
    split_ifs at hexact with hle
    · exact Or.inl hle
    · refine Or.inr (Int.dvd_of_emod_eq_zero ?_)
      have hpos := Int.emod_nonneg (nextAt - now) (b := milliseconds 1) (by decide)
      omega
  · rintro (hle | hwhole) slept hslept
    · rw [if_pos hle] at hslept
      omega
    · have hzero := Int.emod_eq_zero_of_dvd hwhole
      split_ifs at hslept with hle
      · omega
      · omega

/-- The seeded row of `binance`, its window opened at the epoch. -/
def binanceSeed : PacerState := ⟨⟨0, 100, none, 0, 0, none⟩, 0, []⟩

theorem binanceSeed_seeded : Seeded binanceSeed := ⟨rfl, by decide, rfl⟩

def binanceRun : List PacerStatement := [.reserve 1000000000, .reserve 1001000000]

def binanceAfter : PacerState :=
  ⟨⟨1200000000, 100, none, 0, 2, none⟩, 1001000000,
    [.granted 1001000000 1200000000, .granted 1000000000 1100000000]⟩

/-- The first grant reads the clock at its reservation, the second one microsecond
after its own; both sleep exactly as long as asked. -/
def binanceGrants : List Grant := [⟨1200000000, 1001001000, 0⟩, ⟨1100000000, 1000000000, 0⟩]

theorem acquireSlot_respects_binance :
    exec step binanceSeed binanceRun = some binanceAfter ∧ GrantsOf binanceAfter binanceGrants ∧
      ¬ LagsFit (milliseconds 100) binanceGrants :=
  have hrun : exec step binanceSeed binanceRun = some binanceAfter := by decide
  have hgrants : GrantsOf binanceAfter binanceGrants := by decide
  ⟨hrun, hgrants, fun hfit =>
    absurd (((acquireSlot_respects_iff binanceSeed_seeded hrun).2 binanceGrants hgrants).1.mpr hfit)
      (by decide)⟩

/-- The second grant is released 999 microseconds before its slot, less than the gap
after the first. -/
theorem acquireSlot_early :
    exec step binanceSeed binanceRun = some binanceAfter ∧ GrantsOf binanceAfter binanceGrants ∧
      (∀ g ∈ binanceGrants, Micros g.readAt ∧ g.overslept = 0) ∧
      binanceGrants.map Grant.release = [1199001000, 1100000000] ∧
      ¬ (∀ g ∈ binanceGrants, g.nextAt ≤ g.release) ∧
      ¬ binanceGrants.Pairwise fun newer older =>
        milliseconds 100 ≤ |newer.release - older.release| := by
  decide

end CryptoCollector.Pacer

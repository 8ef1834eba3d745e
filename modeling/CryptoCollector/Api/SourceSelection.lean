import CryptoCollector.Api.CandlesAgg
import Mathlib.Data.Prod.Lex

/-!
# Choosing the source interval

Of the stored intervals that divide the target, the one that misses the fewest
seconds of the window is chosen, and the longest of those.
-/

namespace CryptoCollector.Api
open Models Foundations DateTime

/-- The interval lasts `secs` seconds, fewer than the target, which it divides. -/
def Divides (targetSecs : ℤ) (c : IntervalCoverage) (secs : ℤ) : Prop :=
  intervalSecs c.interval = some secs ∧ secs < targetSecs ∧ secs ∣ targetSecs

/-- The old end of the window: its start, or the earliest candle of all candidates. -/
def IsFloor (stored : List IntervalCoverage) (targetSecs : ℤ) (windowStart : Option ℤ)
    (floor : ℤ) : Prop :=
  match windowStart with
  | some start => floor = start
  | none => (∃ c ∈ stored, ∃ secs, Divides targetSecs c secs ∧ c.earliest = floor) ∧
      ∀ c ∈ stored, ∀ secs, Divides targetSecs c secs → floor ≤ c.earliest

/-- The interval misses less than a second at either end of the window. -/
def Covers (floor now : ℤ) (c : IntervalCoverage) : Prop :=
  c.earliest < floor + seconds 1 ∧ now < c.latest + seconds 1

/-- The window the candidates are scored over. -/
def windowFloor (stored : List IntervalCoverage) (targetSecs : ℤ) (windowStart : Option ℤ)
    (now : ℤ) : ℤ :=
  windowStart.getD (((divisors stored targetSecs).map fun d => d.2.earliest).min?.getD now)

/-- Candidates in the order they are preferred. -/
def preference (floor now : ℤ) (d : ℤ × IntervalCoverage) : ℤ ×ₗ ℤ :=
  toLex (coverageScore floor now d.2, -d.1)

section Selection

variable {stored stored' : List IntervalCoverage} {targetSecs floor now secs : ℤ}
  {windowStart : Option ℤ} {c : IntervalCoverage} {interval : String}

theorem intervalSecs_inj {s s' : String} (h : intervalSecs s = some secs)
    (h' : intervalSecs s' = some secs) : s = s' := by
  obtain ⟨i, hi, hsecs⟩ := Option.map_eq_some_iff.mp h
  obtain ⟨i', hi', hsecs'⟩ := Option.map_eq_some_iff.mp h'
  have hsame : i = i' := ApiInterval.secs_injective (hsecs.trans hsecs'.symm)
  rw [← ApiInterval.asStr_of_fromStr hi, ← ApiInterval.asStr_of_fromStr hi', hsame]

theorem mem_divisors_iff :
    (secs, c) ∈ divisors stored targetSecs ↔ c ∈ stored ∧ Divides targetSecs c secs := by
  simp only [divisors, List.mem_filterMap, Option.bind_eq_some_iff]
  constructor
  · rintro ⟨c', hc', secs', hsecs, hif⟩
    split_ifs at hif with hdiv
    cases hif
    exact ⟨hc', hsecs, hdiv.1, Int.dvd_of_emod_eq_zero hdiv.2⟩
  · rintro ⟨hc, hsecs, hlt, hdvd⟩
    exact ⟨c, hc, secs, hsecs, if_pos ⟨hlt, Int.emod_eq_zero_of_dvd hdvd⟩⟩

theorem coversBetter_iff (floor now : ℤ) (d d' : ℤ × IntervalCoverage) :
    coversBetter floor now d d' = true ↔ preference floor now d < preference floor now d' := by
  simp [coversBetter, preference, Prod.Lex.toLex_lt_toLex]

theorem coverageScore_nonneg (floor now : ℤ) (c : IntervalCoverage) :
    0 ≤ coverageScore floor now c := by
  simp only [coverageScore]
  omega

theorem coverageScore_eq_zero_iff : coverageScore floor now c = 0 ↔ Covers floor now c := by
  have hdeep : numSeconds (c.earliest - floor) ≤ 0 ↔ c.earliest < floor + seconds 1 := by
    rw [numSeconds_nonpos_iff]
    omega
  have hstale : numSeconds (now - c.latest) ≤ 0 ↔ now < c.latest + seconds 1 := by
    rw [numSeconds_nonpos_iff]
    omega
  rw [Covers, ← hdeep, ← hstale]
  simp only [coverageScore]
  omega

theorem isFloor_windowFloor (h : (secs, c) ∈ divisors stored targetSecs) :
    IsFloor stored targetSecs windowStart (windowFloor stored targetSecs windowStart now) := by
  cases windowStart with
  | some start => rfl
  | none =>
    have hmem : c.earliest ∈ (divisors stored targetSecs).map fun d => d.2.earliest :=
      List.mem_map.mpr ⟨(secs, c), h, rfl⟩
    cases hmin : ((divisors stored targetSecs).map fun d => d.2.earliest).min? with
    | none =>
      rw [List.min?_eq_none_iff] at hmin
      rw [hmin] at hmem
      cases hmem
    | some floor =>
      have hfloor : windowFloor stored targetSecs none now = floor := by simp [windowFloor, hmin]
      obtain ⟨hattained, hleast⟩ := List.min?_eq_some_iff.mp hmin
      rw [hfloor]
      constructor
      · obtain ⟨⟨secs', c'⟩, hc', hearliest⟩ := List.mem_map.mp hattained
        obtain ⟨hstored, hdivides⟩ := mem_divisors_iff.mp hc'
        exact ⟨c', hstored, secs', hdivides, hearliest⟩
      · intro c' hc' secs' hdivides
        exact hleast _ (List.mem_map.mpr ⟨(secs', c'), mem_divisors_iff.mpr ⟨hc', hdivides⟩, rfl⟩)

theorem isFloor_unique {floor' : ℤ} (h : IsFloor stored targetSecs windowStart floor)
    (h' : IsFloor stored targetSecs windowStart floor') : floor = floor' := by
  cases windowStart with
  | some start => exact h.trans h'.symm
  | none =>
    obtain ⟨⟨c, hc, secs, hdivides, rfl⟩, hleast⟩ := h
    obtain ⟨⟨c', hc', secs', hdivides', rfl⟩, hleast'⟩ := h'
    exact le_antisymm (hleast c' hc' secs' hdivides') (hleast' c hc secs hdivides)

theorem IsFloor.perm (h : IsFloor stored targetSecs windowStart floor)
    (hperm : stored.Perm stored') : IsFloor stored' targetSecs windowStart floor := by
  cases windowStart with
  | some start => exact h
  | none =>
    obtain ⟨⟨c, hc, hattained⟩, hleast⟩ := h
    exact ⟨⟨c, hperm.subset hc, hattained⟩, fun c' hc' => hleast c' (hperm.symm.subset hc')⟩

/-- The interval chosen is the first in the order of preference. -/
theorem exists_chosen (h : selectSourceInterval stored targetSecs windowStart now = some interval) :
    ∃ c ∈ stored, ∃ secs floor, c.interval = interval ∧ Divides targetSecs c secs ∧
      IsFloor stored targetSecs windowStart floor ∧
        ∀ c' ∈ stored, ∀ secs', Divides targetSecs c' secs' →
          preference floor now (secs, c) ≤ preference floor now (secs', c') := by
  obtain ⟨⟨secs, c⟩, hbest, rfl⟩ := Option.map_eq_some_iff.mp h
  have hmem := firstMin_mem hbest
  obtain ⟨hstored, hdivides⟩ := mem_divisors_iff.mp hmem
  refine ⟨c, hstored, secs, windowFloor stored targetSecs windowStart now, rfl, hdivides,
    isFloor_windowFloor hmem, ?_⟩
  intro c' hc' secs' hdivides'
  exact firstMin_le (coversBetter_iff _ now) hbest (mem_divisors_iff.mpr ⟨hc', hdivides'⟩)

theorem selectSourceInterval_eq_none_iff :
    selectSourceInterval stored targetSecs windowStart now = none ↔
      ∀ c ∈ stored, ∀ secs, ¬Divides targetSecs c secs := by
  have hempty : selectSourceInterval stored targetSecs windowStart now = none ↔
      divisors stored targetSecs = [] := by
    rw [selectSourceInterval, Option.map_eq_none_iff, firstMin_eq_none_iff]
  rw [hempty, List.eq_nil_iff_forall_not_mem]
  constructor
  · intro hnone c hc secs hdivides
    exact hnone (secs, c) (mem_divisors_iff.mpr ⟨hc, hdivides⟩)
  · rintro hnone ⟨secs, c⟩ hmem
    obtain ⟨hc, hdivides⟩ := mem_divisors_iff.mp hmem
    exact hnone c hc secs hdivides

theorem selectSourceInterval_perm (hperm : stored.Perm stored') :
    selectSourceInterval stored' targetSecs windowStart now =
      selectSourceInterval stored targetSecs windowStart now := by
  cases h : selectSourceInterval stored targetSecs windowStart now with
  | none =>
    rw [selectSourceInterval_eq_none_iff] at h ⊢
    intro c hc
    exact h c (hperm.symm.subset hc)
  | some interval =>
    cases h' : selectSourceInterval stored' targetSecs windowStart now with
    | none =>
      obtain ⟨c, hc, secs, floor, -, hdivides, -, -⟩ := exists_chosen h
      exact absurd hdivides (selectSourceInterval_eq_none_iff.mp h' c (hperm.subset hc) secs)
    | some interval' =>
      obtain ⟨c, hc, secs, floor, rfl, hdivides, hfloor, hbest⟩ := exists_chosen h
      obtain ⟨c', hc', secs', floor', rfl, hdivides', hfloor', hbest'⟩ := exists_chosen h'
      obtain rfl := isFloor_unique (hfloor.perm hperm) hfloor'
      have hle := hbest c' (hperm.symm.subset hc') secs' hdivides'
      have hge := hbest' c (hperm.subset hc) secs hdivides
      have hsame : (coverageScore floor now c, -secs) = (coverageScore floor now c', -secs') :=
        toLex.injective (le_antisymm hle hge)
      simp only [Prod.mk.injEq, neg_inj] at hsame
      rw [intervalSecs_inj hdivides.1 (hsame.2 ▸ hdivides'.1)]

end Selection

/-- `select_source_interval`: the choice misses the fewest whole seconds of the window
among the intervals that divide the target, is the longest of those that miss as many,
and is the same for every order of the rows. -/
theorem selectSourceInterval_spec (stored : List IntervalCoverage) (targetSecs : ℤ)
    (windowStart : Option ℤ) (now : ℤ) :
    (∀ interval, selectSourceInterval stored targetSecs windowStart now = some interval →
      ∃ c ∈ stored, ∃ secs floor, c.interval = interval ∧ Divides targetSecs c secs ∧
        IsFloor stored targetSecs windowStart floor ∧
        (∀ c' ∈ stored, ∀ secs', Divides targetSecs c' secs' →
          coverageScore floor now c ≤ coverageScore floor now c' ∧
            (coverageScore floor now c = coverageScore floor now c' → secs' ≤ secs)) ∧
        ((∃ c' ∈ stored, ∃ secs', Divides targetSecs c' secs' ∧ Covers floor now c') →
          Covers floor now c)) ∧
      (∀ stored', stored.Perm stored' →
        selectSourceInterval stored' targetSecs windowStart now =
          selectSourceInterval stored targetSecs windowStart now) ∧
      (selectSourceInterval stored targetSecs windowStart now = none ↔
        ∀ c ∈ stored, ∀ secs, ¬Divides targetSecs c secs) := by
  refine ⟨?_, fun _ hperm => selectSourceInterval_perm hperm, selectSourceInterval_eq_none_iff⟩
  intro interval h
  obtain ⟨c, hc, secs, floor, hname, hdivides, hfloor, hbest⟩ := exists_chosen h
  have hscore : ∀ c' ∈ stored, ∀ secs', Divides targetSecs c' secs' →
      coverageScore floor now c ≤ coverageScore floor now c' ∧
        (coverageScore floor now c = coverageScore floor now c' → secs' ≤ secs) := by
    intro c' hc' secs' hdivides'
    have hle := hbest c' hc' secs' hdivides'
    rw [preference, preference, Prod.Lex.toLex_le_toLex] at hle
    rcases hle with hlt | ⟨heq, hsecs⟩
    · exact ⟨hlt.le, fun heq => absurd heq hlt.ne⟩
    · exact ⟨heq.le, fun _ => neg_le_neg_iff.mp hsecs⟩
  refine ⟨c, hc, secs, floor, hname, hdivides, hfloor, hscore, ?_⟩
  rintro ⟨c', hc', secs', hdivides', hcovers⟩
  rw [← coverageScore_eq_zero_iff] at hcovers ⊢
  have hle := (hscore c' hc' secs' hdivides').1
  have hnonneg := coverageScore_nonneg floor now c
  omega

end CryptoCollector.Api

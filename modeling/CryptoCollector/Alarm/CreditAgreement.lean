import CryptoCollector.Alarm.Reconciler
import CryptoCollector.Foundations.KeyedTable
import CryptoCollector.Pacer

/-!
# The credit alarm and the pacer

The alarm compares the credits a row has stored; the pacer first starts a new window
when the month is over. They differ on a row whose window has elapsed and has not been
reset yet, until the next slot is asked for.
-/

namespace CryptoCollector.Alarm
open Foundations DateTime
open Pacer (oneMonth resetCreditWindowIfNeeded reserveSlot slotOpen acquireOutcome)

/-- The rows of `upstream_request_pacer` by provider; the primary key keeps them apart. -/
abbrev PacerTable := KeyedTable (Prod.fst : String × Pacer.PacerRow → String)

/-- `pacer_rows`: the columns the sweep selects. -/
def pacerRows (table : PacerTable) : List PacerRow :=
  table.rows.map fun (provider, row) =>
    ⟨provider, row.cooldownUntil, row.creditLimit, row.creditsUsed⟩

/-- `acquire_slot` with all its statements at one instant: what it answers, and the row
it leaves. -/
def acquireAt (provider : String) (row : Pacer.PacerRow) (now : ℤ) :
    Except Pacer.AcquireSlotError ℤ × Pacer.PacerRow :=
  let current := resetCreditWindowIfNeeded row now
  match reserveSlot current now with
  | some reserved => (acquireOutcome provider (some reserved.nextAllowedAt) none now, reserved)
  | none =>
    (acquireOutcome provider none
      (some (current.cooldownUntil, current.creditLimit, current.creditsUsed)) now, current)

/-- The sweep reports the provider's credit as used up. -/
def ReportsCredit (table : PacerTable) (provider : String) (now : ℤ) : Prop :=
  .providerCreditExhausted provider ∈ pacerRowsToConditions (pacerRows table) now

/-- A slot asked for now is refused for credits. -/
def RefusedForCredits (provider : String) (row : Pacer.PacerRow) (now : ℤ) : Prop :=
  (acquireAt provider row now).1 = .error (.creditExhausted provider)

instance (table : PacerTable) (provider : String) (now : ℤ) :
    Decidable (ReportsCredit table provider now) :=
  inferInstanceAs (Decidable (_ ∈ _))

def NoCooldown (row : Pacer.PacerRow) (now : ℤ) : Prop :=
  ∀ expiry ∈ row.cooldownUntil, expiry ≤ now

instance (row : Pacer.PacerRow) (now : ℤ) : Decidable (NoCooldown row now) :=
  inferInstanceAs (Decidable (∀ expiry ∈ row.cooldownUntil, _))

variable {table : PacerTable} {provider : String} {row : Pacer.PacerRow} {now : ℤ}

theorem reportsCredit_iff (hrow : (provider, row) ∈ table.rows) :
    ReportsCredit table provider now ↔ ∃ limit ∈ row.creditLimit, limit ≤ row.creditsUsed := by
  rw [ReportsCredit, mem_pacerRowsToConditions]
  constructor
  · rintro ⟨read, hread, ⟨-, heq⟩ | ⟨hexhausted, heq⟩⟩
    · cases heq
    · obtain ⟨⟨name, stored⟩, hstored, rfl⟩ := List.mem_map.mp hread
      have hname : name = provider := by simpa using heq.symm
      have hsame : (name, stored) = (provider, row) :=
        List.inj_on_of_nodup_map table.unique hstored hrow hname
      cases hsame
      exact hexhausted
  · intro hexhausted
    exact ⟨_, List.mem_map.mpr ⟨_, hrow, rfl⟩, Or.inr ⟨hexhausted, rfl⟩⟩

@[simp] theorem resetCreditWindowIfNeeded_cooldownUntil :
    (resetCreditWindowIfNeeded row now).cooldownUntil = row.cooldownUntil := by
  unfold resetCreditWindowIfNeeded
  split_ifs <;> rfl

@[simp] theorem resetCreditWindowIfNeeded_creditLimit :
    (resetCreditWindowIfNeeded row now).creditLimit = row.creditLimit := by
  unfold resetCreditWindowIfNeeded
  split_ifs <;> rfl

theorem refusedForCredits_iff (hcooldown : NoCooldown row now) :
    RefusedForCredits provider row now ↔ ∃ limit ∈ row.creditLimit,
      limit ≤ (resetCreditWindowIfNeeded row now).creditsUsed := by
  have hopen : slotOpen (resetCreditWindowIfNeeded row now) now ↔ ∀ limit ∈ row.creditLimit,
      (resetCreditWindowIfNeeded row now).creditsUsed < limit := by
    simp only [slotOpen, resetCreditWindowIfNeeded_cooldownUntil,
      resetCreditWindowIfNeeded_creditLimit]
    exact and_iff_right hcooldown
  unfold RefusedForCredits acquireAt reserveSlot
  by_cases hslot : slotOpen (resetCreditWindowIfNeeded row now) now
  · simp only [if_pos hslot, acquireOutcome, reduceCtorEq, false_iff, not_exists, not_and, not_le]
    exact hopen.mp hslot
  · have hexhausted : ∃ limit ∈ row.creditLimit,
        limit ≤ (resetCreditWindowIfNeeded row now).creditsUsed := by
      rw [hopen] at hslot
      push Not at hslot
      exact hslot
    have hgate : row.creditLimit.any (fun limit =>
        (resetCreditWindowIfNeeded row now).creditsUsed ≥ limit) = true := by
      obtain ⟨limit, hlimit, hle⟩ := hexhausted
      rw [Option.mem_def.mp hlimit]
      simpa using hle
    simp only [if_neg hslot, acquireOutcome, Pacer.classifyBlocked,
      resetCreditWindowIfNeeded_cooldownUntil, resetCreditWindowIfNeeded_creditLimit, hgate,
      if_true, hexhausted, iff_true]
    cases hexpiry : row.cooldownUntil with
    | none => rfl
    | some expiry => simp only [if_neg (not_lt.mpr (hcooldown expiry hexpiry))]

/-- On a row whose window has not elapsed the alarm and the pacer agree. -/
theorem agrees_of_current (hrow : (provider, row) ∈ table.rows) (hcooldown : NoCooldown row now)
    (hcurrent : now - row.creditWindowStart < oneMonth) :
    ReportsCredit table provider now ↔ RefusedForCredits provider row now := by
  rw [reportsCredit_iff hrow, refusedForCredits_iff hcooldown, resetCreditWindowIfNeeded,
    if_neg (by omega)]

theorem acquireAt_row (provider : String) (row : Pacer.PacerRow) (now : ℤ) :
    now - (acquireAt provider row now).2.creditWindowStart < oneMonth ∧
    (acquireAt provider row now).2.cooldownUntil = row.cooldownUntil := by
  have hreset : now - (resetCreditWindowIfNeeded row now).creditWindowStart < oneMonth := by
    unfold resetCreditWindowIfNeeded
    split_ifs with helapsed
    · have hmonth : 0 < oneMonth := by decide
      simpa using hmonth
    · exact not_le.mp helapsed
  cases hreserve : reserveSlot (resetCreditWindowIfNeeded row now) now with
  | none =>
    simp only [acquireAt, hreserve]
    exact ⟨hreset, resetCreditWindowIfNeeded_cooldownUntil⟩
  | some reserved =>
    simp only [acquireAt, hreserve]
    obtain ⟨-, rfl⟩ := Pacer.reserveSlot_eq_some hreserve
    exact ⟨hreset, resetCreditWindowIfNeeded_cooldownUntil⟩

/-- The credit alarm and the pacer agree on a row unless its window has elapsed and the
stored credits stand otherwise to the limit than none do; from the next slot asked for
they agree again. -/
theorem creditAlarm_agreement (table : PacerTable) (provider : String) (row : Pacer.PacerRow)
    (now : ℤ) (hrow : (provider, row) ∈ table.rows) (hcooldown : NoCooldown row now) :
    (ReportsCredit table provider now ↔ ∃ limit ∈ row.creditLimit, limit ≤ row.creditsUsed) ∧
      ((ReportsCredit table provider now ↔ RefusedForCredits provider row now) ↔
        now - row.creditWindowStart < oneMonth ∨
          ∀ limit ∈ row.creditLimit, (limit ≤ row.creditsUsed ↔ limit ≤ 0)) ∧
      ∀ table' : PacerTable, (provider, (acquireAt provider row now).2) ∈ table'.rows →
        (ReportsCredit table' provider now ↔
          RefusedForCredits provider (acquireAt provider row now).2 now) := by
  refine ⟨reportsCredit_iff hrow, ?_, ?_⟩
  · by_cases hcurrent : now - row.creditWindowStart < oneMonth
    · simp only [hcurrent, true_or, iff_true]
      exact agrees_of_current hrow hcooldown hcurrent
    · have hused : (resetCreditWindowIfNeeded row now).creditsUsed = 0 := by
        rw [resetCreditWindowIfNeeded, if_pos (by omega)]
      rw [reportsCredit_iff hrow, refusedForCredits_iff hcooldown, hused]
      simp only [hcurrent, false_or]
      cases hlimit : row.creditLimit with
      | none => simp
      | some limit => simp
  · intro table' hrow'
    obtain ⟨hcurrent, hsame⟩ := acquireAt_row provider row now
    apply agrees_of_current hrow' _ hcurrent
    intro expiry hexpiry
    exact hcooldown expiry (hsame ▸ hexpiry)

/-- A row whose month is over, with the budget of that month used up. -/
def spentMonth : Pacer.PacerRow where
  nextAllowedAt := fromTimestamp 1704067200
  minGapMs := 2000
  cooldownUntil := none
  creditWindowStart := fromTimestamp 1704067200
  creditsUsed := 10000
  creditLimit := some 10000

def spentTable : PacerTable := ⟨[("coingecko", spentMonth)], by decide⟩

theorem creditAlarm_agreement_next_month :
    (ReportsCredit spentTable "coingecko" (fromTimestamp 1706745600) ↔
        ∃ limit ∈ spentMonth.creditLimit, limit ≤ spentMonth.creditsUsed) ∧
      ((ReportsCredit spentTable "coingecko" (fromTimestamp 1706745600) ↔
          RefusedForCredits "coingecko" spentMonth (fromTimestamp 1706745600)) ↔
        fromTimestamp 1706745600 - spentMonth.creditWindowStart < oneMonth ∨
          ∀ limit ∈ spentMonth.creditLimit, (limit ≤ spentMonth.creditsUsed ↔ limit ≤ 0)) ∧
      ∀ table' : PacerTable,
        ("coingecko", (acquireAt "coingecko" spentMonth (fromTimestamp 1706745600)).2) ∈
            table'.rows →
          (ReportsCredit table' "coingecko" (fromTimestamp 1706745600) ↔
            RefusedForCredits "coingecko"
              (acquireAt "coingecko" spentMonth (fromTimestamp 1706745600)).2
                (fromTimestamp 1706745600)) :=
  creditAlarm_agreement spentTable "coingecko" spentMonth (fromTimestamp 1706745600)
    (by decide) (by decide)

/-- A month later the alarm still reports the provider, whose next slot is granted. -/
theorem creditAlarm_stale :
    NoCooldown spentMonth (fromTimestamp 1706745600) ∧
      ¬(ReportsCredit spentTable "coingecko" (fromTimestamp 1706745600) ↔
        RefusedForCredits "coingecko" spentMonth (fromTimestamp 1706745600)) := by
  refine ⟨by decide, fun hagree => ?_⟩
  have hreports : ReportsCredit spentTable "coingecko" (fromTimestamp 1706745600) := by decide
  have hgranted : (acquireAt "coingecko" spentMonth (fromTimestamp 1706745600)).1 = .ok 2000 := by
    rfl
  have hrefused := hagree.mp hreports
  rw [RefusedForCredits, hgranted] at hrefused
  cases hrefused

end CryptoCollector.Alarm

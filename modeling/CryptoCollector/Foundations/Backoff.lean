import Mathlib.Algebra.Order.Ring.Defs
import Mathlib.Data.List.Chain
import Mathlib.Tactic

/-!
# Capped doubling and charged instants

A delay that doubles at every use, up to a cap, has a closed form. The instants
it lets pass are listed newest first: each of them costs `rate`, a unit of time
pays `pay`, and `credit` may be overdrawn. What is paid for bounds how many of
the instants fall into a window; instants that follow each other closely bound
it from below.
-/

namespace CryptoCollector.Foundations

section Doubling

variable {α : Type*} [CommSemiring α] [LinearOrder α] [IsStrictOrderedRing α] {cap : α}

def doubled (cap delay : α) : α := min (delay * 2) cap

omit [IsStrictOrderedRing α] in
theorem doubled_le (cap delay : α) : doubled cap delay ≤ cap := min_le_right _ _

theorem doubled_min (hcap : 0 ≤ cap) (delay : α) :
    doubled cap (min delay cap) = min (delay * 2) cap := by
  have htwice : cap ≤ cap * 2 := by
    calc cap = cap * 1 := (mul_one cap).symm
      _ ≤ cap * 2 := mul_le_mul_of_nonneg_left one_le_two hcap
  rcases le_total delay cap with hle | hle
  · rw [min_eq_left hle, doubled]
  · have hdouble : cap ≤ delay * 2 :=
      htwice.trans (mul_le_mul_of_nonneg_right hle zero_le_two)
    rw [min_eq_right hle, doubled, min_eq_right htwice, min_eq_right hdouble]

end Doubling

section Charged

/-- Any two of the instants are far enough apart to pay for those between them and
one of the two. -/
def PaidFor (rate pay credit : ℤ) (instants : List ℤ) : Prop :=
  ∀ newest between oldest, (newest :: (between ++ [oldest])).Sublist instants →
    rate * (between.length + 1) ≤ pay * (newest - oldest) + credit

/-- At `now` every one of the instants is far enough back to pay for itself and
all after it. -/
def PaidBy (rate pay credit now : ℤ) (instants : List ℤ) : Prop :=
  ∀ between oldest, (between ++ [oldest]).Sublist instants →
    rate * (between.length + 1) ≤ pay * (now - oldest) + credit

variable {rate pay credit credit' now later : ℤ} {instants : List ℤ}

theorem PaidFor.nil : PaidFor rate pay credit [] := by
  intro newest between oldest hsub
  cases List.sublist_nil.mp hsub

theorem PaidBy.nil : PaidBy rate pay credit now [] := by
  intro between oldest hsub
  have hnil := List.sublist_nil.mp hsub
  simp at hnil

theorem PaidFor.cons (h : PaidFor rate pay credit instants)
    (howed : PaidBy rate pay credit now instants) : PaidFor rate pay credit (now :: instants) := by
  intro newest between oldest hsub
  rcases List.sublist_cons_iff.mp hsub with htail | ⟨rest, heq, hrest⟩
  · exact h newest between oldest htail
  · obtain ⟨rfl, rfl⟩ := List.cons.inj heq
    exact howed between oldest hrest

/-- Waiting pays: what stays of the debt is the new credit. -/
theorem PaidBy.wait (h : PaidBy rate pay credit now instants)
    (hpays : credit ≤ pay * (later - now) + credit') :
    PaidBy rate pay credit' later instants := by
  intro between oldest hsub
  have hnow := h between oldest hsub
  have hsplit : pay * (later - oldest) = pay * (later - now) + pay * (now - oldest) := by ring
  linarith

theorem PaidBy.cons (hrate : 0 ≤ rate) (hcredit : 0 ≤ credit)
    (h : PaidBy rate pay credit now instants)
    (hpays : rate + credit ≤ pay * (later - now) + credit') :
    PaidBy rate pay credit' later (now :: instants) := by
  intro between oldest hsub
  have hsplit : pay * (later - oldest) = pay * (later - now) + pay * (now - oldest) := by ring
  rcases List.sublist_cons_iff.mp hsub with htail | ⟨rest, heq, hrest⟩
  · have hnow := h between oldest htail
    linarith
  · cases between with
    | nil =>
      obtain ⟨rfl, -⟩ := List.cons.inj heq
      simp only [List.length_nil, Nat.cast_zero, zero_add, mul_one]
      linarith
    | cons first between =>
      obtain ⟨rfl, rfl⟩ := List.cons.inj heq
      have hnow := h between oldest hrest
      simp only [List.length_cons, Nat.cast_add, Nat.cast_one]
      linarith

/-- What a condition picks of charged instants is one at most, or two of them pay
for all but one. -/
theorem PaidFor.picked (h : PaidFor rate pay credit instants) (p : ℤ → Bool) :
    instants.countP p ≤ 1 ∨
      ∃ newest ∈ instants, ∃ oldest ∈ instants, p newest = true ∧ p oldest = true ∧
        rate * (instants.countP p - 1) ≤ pay * (newest - oldest) + credit := by
  rw [List.countP_eq_length_filter]
  have hsub : (instants.filter p).Sublist instants := List.filter_sublist
  have hpicked : ∀ x ∈ instants.filter p, x ∈ instants ∧ p x = true := by
    intro x hx
    exact List.mem_filter.mp hx
  generalize instants.filter p = picked at hsub hpicked
  cases picked with
  | nil => exact Or.inl (Nat.zero_le 1)
  | cons newest rest =>
    rcases List.eq_nil_or_concat rest with rfl | ⟨between, oldest, rfl⟩
    · exact Or.inl le_rfl
    · rw [List.concat_eq_append] at hsub hpicked ⊢
      have hnewest := hpicked newest List.mem_cons_self
      have holdest := hpicked oldest (by simp)
      have hpaid := h newest between oldest hsub
      refine Or.inr ⟨newest, hnewest.1, oldest, holdest.1, hnewest.2, holdest.2, ?_⟩
      have hlength : ((newest :: (between ++ [oldest])).length : ℤ) - 1 = between.length + 1 := by
        simp
      rw [hlength]
      exact hpaid

theorem PaidFor.countP_window (h : PaidFor rate pay credit instants) (hrate : 0 ≤ rate)
    (hpay : 0 ≤ pay) (hcredit : 0 ≤ credit) (start : ℤ) {span : ℤ} (hspan : 0 ≤ span) :
    rate * instants.countP (fun t => decide (start ≤ t ∧ t ≤ start + span)) ≤
      pay * span + credit + rate := by
  have hroom : 0 ≤ pay * span := mul_nonneg hpay hspan
  rcases h.picked fun t => decide (start ≤ t ∧ t ≤ start + span) with
    hone | ⟨newest, -, oldest, -, hnewest, holdest, hpaid⟩
  · have hcount :
        ((instants.countP fun t => decide (start ≤ t ∧ t ≤ start + span) : ℕ) : ℤ) ≤ 1 := by
      exact_mod_cast hone
    have hone' := mul_le_mul_of_nonneg_left hcount hrate
    linarith
  · have hwithin : newest - oldest ≤ span := by
      have hnew := of_decide_eq_true hnewest
      have hold := of_decide_eq_true holdest
      linarith [hnew.2, hold.1]
    have hspan' := mul_le_mul_of_nonneg_left hwithin hpay
    rw [mul_sub, mul_one] at hpaid
    linarith

end Charged

/-- Instants at most `gap` apart, from `now` back to `origin`: a window that is
longer than `n` gaps holds `n` of them. -/
theorem le_countP_of_gaps {gap width now newest origin : ℤ} {instants : List ℤ} (hgap : 0 ≤ gap)
    (hchain : List.IsChain (fun newer older => newer - older ≤ gap)
      (newest :: (instants ++ [origin]))) {n : ℕ}
    (hlong : n * gap < newest - origin) (hwidth : now - newest + n * gap < width) :
    n ≤ instants.countP fun t => decide (now - t < width) := by
  induction instants generalizing newest n with
  | nil =>
    have hlast : newest - origin ≤ gap := by simpa using hchain
    have hzero : n < 1 := by
      by_contra hn
      have hone : (1 : ℤ) ≤ n := by exact_mod_cast Nat.le_of_not_lt hn
      have hgaps := mul_le_mul_of_nonneg_right hone hgap
      linarith
    omega
  | cons t instants ih =>
    rw [List.cons_append, List.isChain_cons_cons] at hchain
    obtain ⟨hnear, hrest⟩ := hchain
    cases n with
    | zero => exact Nat.zero_le _
    | succ n =>
      push_cast at hlong hwidth
      have hgaps : 0 ≤ n * gap := mul_nonneg (Int.natCast_nonneg n) hgap
      have hcounted : now - t < width := by linarith
      have htail := ih hrest (n := n) (by linarith) (by linarith)
      rw [List.countP_cons_of_pos (by simpa using hcounted)]
      exact Nat.succ_le_succ htail

end CryptoCollector.Foundations

import CryptoCollector.Foundations.Runs
import Mathlib.Tactic

/-!
# Rotation

The members of a population are served in rounds, a fixed number at a time; a log
beside the state says who was served. A window in which no round serves a member
for the second time serves everyone who waits through it, once it has as many
rounds as the population fills.
-/

namespace CryptoCollector.Foundations

variable {σ α ι : Type*}

/-- A step beside the log of those served. -/
def logStep (step : σ → α → Option σ) (served : α → List ι) (s : σ × List ι) (a : α) :
    Option (σ × List ι) :=
  (step s.1 a).map fun t => (t, s.2 ++ served a)

/-- A round that serves neither `x` nor anyone in the log, but so many others of
the population. -/
def ServesFresh (served : α → List ι) (population : List ι) (size : ℕ) (log : List ι) (a : α) :
    Prop :=
  (served a).length = size ∧ (served a).Nodup ∧ ∀ y ∈ served a, y ∈ population ∧ y ∉ log

/-- Until `x` is served, every round that leaves it out serves others. -/
def Rotates (served : α → List ι) (round : α → Bool) (population : List ι) (size : ℕ) (x : ι)
    (s : σ × List ι) (a : α) : Prop :=
  round a = true → x ∉ s.2 → x ∉ served a → ServesFresh served population size s.2 a

variable {step : σ → α → Option σ} {served : α → List ι} {round : α → Bool}
  {population : List ι} {size : ℕ} {x : ι} {s t : σ} {log : List ι} {as : List α}

theorem exec_logStep :
    exec (logStep step served) (s, log) as =
      (exec step s as).map fun t => (t, log ++ as.flatMap served) := by
  induction as generalizing s log with
  | nil => simp
  | cons a as ih =>
    cases h : step s a with
    | none => simp [exec, logStep, h]
    | some u => simp [exec, logStep, h, ih]

theorem exec_logged (hrun : exec step s as = some t) :
    exec (logStep step served) (s, []) as = some (t, as.flatMap served) := by
  rw [exec_logStep, hrun]
  rfl

theorem exists_served_of_rotates (hrun : exec step s as = some t)
    (hmeet : StepsMeet (logStep step served) (Rotates served round population size x) (s, log) as)
    (hleft : x ∉ log ++ as.flatMap served) :
    ∃ fresh : List ι, fresh.Nodup ∧ fresh.length = as.countP round * size ∧
      ∀ y ∈ fresh, y ∈ as.flatMap served ∧ y ∈ population ∧ y ∉ log := by
  induction as generalizing s log with
  | nil => exact ⟨[], List.nodup_nil, by simp, by simp⟩
  | cons a as ih =>
    obtain ⟨u, hu, hrest⟩ := (exec_cons_eq_some step).mp hrun
    have hlogged : logStep step served (s, log) a = some (u, log ++ served a) := by
      simp [logStep, hu]
    rw [List.flatMap_cons, ← List.append_assoc] at hleft
    obtain ⟨fresh, hnodup, hlength, hfresh⟩ := ih hrest (hmeet.2 _ hlogged) hleft
    by_cases hround : round a = true
    · simp only [List.mem_append, not_or] at hleft
      obtain ⟨hsize, hdistinct, hserved⟩ := hmeet.1 hround hleft.1.1 hleft.1.2
      refine ⟨served a ++ fresh, ?_, ?_, ?_⟩
      · rw [List.nodup_append]
        refine ⟨hdistinct, hnodup, ?_⟩
        rintro y hy z hz rfl
        exact (hfresh y hz).2.2 (List.mem_append_right _ hy)
      · rw [List.length_append, hsize, hlength, List.countP_cons_of_pos hround]
        ring
      · intro y hy
        rcases List.mem_append.mp hy with hy | hy
        · exact ⟨List.mem_append_left _ hy, hserved y hy⟩
        · obtain ⟨hmem, hpop, hnot⟩ := hfresh y hy
          exact ⟨List.mem_append_right _ hmem, hpop,
            fun hlog => hnot (List.mem_append_left _ hlog)⟩
    · rw [List.countP_cons_of_neg hround]
      refine ⟨fresh, hnodup, hlength, ?_⟩
      intro y hy
      obtain ⟨hmem, hpop, hnot⟩ := hfresh y hy
      exact ⟨List.mem_append_right _ hmem, hpop, fun hlog => hnot (List.mem_append_left _ hlog)⟩

/-- As many rounds as the population fills serve every member that waits. -/
theorem served_of_rotates (hrun : exec step s as = some t)
    (hmeet : StepsMeet (logStep step served) (Rotates served round population size x) (s, []) as)
    (hx : x ∈ population) (hmany : population.length ≤ as.countP round * size) :
    x ∈ as.flatMap served := by
  by_contra hleft
  obtain ⟨fresh, hnodup, hlength, hfresh⟩ := exists_served_of_rotates hrun hmeet hleft
  have hnew : x ∉ fresh := fun hmem => hleft (hfresh x hmem).1
  have hsub : x :: fresh ⊆ population := by
    intro y hy
    rcases List.mem_cons.mp hy with rfl | hy
    · exact hx
    · exact (hfresh y hy).2.1
  have hle := (List.subperm_of_subset (List.nodup_cons.mpr ⟨hnew, hnodup⟩) hsub).length_le
  rw [List.length_cons, hlength] at hle
  omega

end CryptoCollector.Foundations

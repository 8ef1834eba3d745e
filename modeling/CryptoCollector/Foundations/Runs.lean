import Mathlib.Algebra.Order.Ring.Nat
import Mathlib.Data.List.Basic

/-!
# Runs of a partial step function

A system is a state type, an action type and a partial step function; an
action that is not enabled has no successor. Runs are finite action lists.
The rules below package the two inductions every development over such a
system repeats: an invariant along a run, and a transitive relation between
the two ends of a run. `StepsMeet` restricts a run by a condition on the
state before each step.
-/

namespace CryptoCollector.Foundations

variable {σ α : Type*} (step : σ → α → Option σ)

/-- Execute a list of actions; `none` once an action is not enabled. -/
def exec : σ → List α → Option σ
  | s, [] => some s
  | s, a :: as =>
    match step s a with
    | none => none
    | some t => exec t as

@[simp] theorem exec_nil (s : σ) : exec step s [] = some s := rfl

theorem exec_cons_eq_some {s u : σ} {a : α} {as : List α} :
    exec step s (a :: as) = some u ↔ ∃ t, step s a = some t ∧ exec step t as = some u := by
  cases h : step s a <;> simp [exec, h]

theorem exec_append_eq_some {s u : σ} {as bs : List α} :
    exec step s (as ++ bs) = some u ↔
      ∃ t, exec step s as = some t ∧ exec step t bs = some u := by
  induction as generalizing s with
  | nil => simp
  | cons a as ih =>
    simp only [List.cons_append, exec_cons_eq_some, ih]
    constructor
    · rintro ⟨t, ht, v, hv, hu⟩
      exact ⟨v, ⟨t, ht, hv⟩, hu⟩
    · rintro ⟨v, ⟨t, ht, hv⟩, hu⟩
      exact ⟨t, ht, v, hv, hu⟩

/-- The condition `C` holds of every step the run takes, in the state before it. -/
def StepsMeet (C : σ → α → Prop) : σ → List α → Prop
  | _, [] => True
  | s, a :: as => C s a ∧ ∀ t, step s a = some t → StepsMeet C t as

instance decidableStepsMeet {C : σ → α → Prop} [∀ s a, Decidable (C s a)] :
    (s : σ) → (as : List α) → Decidable (StepsMeet step C s as)
  | _, [] => inferInstanceAs (Decidable True)
  | s, a :: as =>
    have : ∀ t, Decidable (StepsMeet step C t as) := fun t => decidableStepsMeet t as
    inferInstanceAs (Decidable (C s a ∧ ∀ t ∈ step s a, StepsMeet step C t as))

theorem stepsMeet_of_forall {C : σ → α → Prop} {as : List α} (h : ∀ a ∈ as, ∀ s, C s a) (s : σ) :
    StepsMeet step C s as := by
  induction as generalizing s with
  | nil => trivial
  | cons a as ih =>
    exact ⟨h a List.mem_cons_self s, fun t _ => ih (fun b hb => h b (List.mem_cons_of_mem _ hb)) t⟩

/-- `I` holds of every state the run passes through, both ends included. -/
def EveryReached (I : σ → Prop) (s : σ) (as : List α) : Prop :=
  ∀ pre, pre <+: as → ∀ t, exec step s pre = some t → I t

variable {step}

theorem everyReached_nil {I : σ → Prop} {s : σ} : EveryReached step I s [] ↔ I s := by
  simp [EveryReached]

theorem everyReached_cons {I : σ → Prop} {s : σ} {a : α} {as : List α} :
    EveryReached step I s (a :: as) ↔
      I s ∧ ∀ t, step s a = some t → EveryReached step I t as := by
  constructor
  · intro h
    refine ⟨h [] List.nil_prefix s rfl, ?_⟩
    intro t ht pre hpre u hu
    exact h (a :: pre) (List.cons_prefix_cons.mpr ⟨rfl, hpre⟩) u
      ((exec_cons_eq_some step).mpr ⟨t, ht, hu⟩)
  · rintro ⟨hs, hrest⟩ pre hpre u hu
    cases pre with
    | nil =>
      obtain rfl : s = u := by simpa using hu
      exact hs
    | cons b pre =>
      obtain ⟨rfl, htail⟩ := List.cons_prefix_cons.mp hpre
      obtain ⟨t, ht, hu⟩ := (exec_cons_eq_some step).mp hu
      exact hrest t ht pre htail u hu

theorem exec_invariant_of_steps {C : σ → α → Prop} {I : σ → Prop}
    (hstep : ∀ s a t, I s → C s a → step s a = some t → I t) {s t : σ} {as : List α}
    (hs : I s) (hmeet : StepsMeet step C s as) (hrun : exec step s as = some t) : I t := by
  induction as generalizing s with
  | nil =>
    obtain rfl : s = t := by simpa using hrun
    exact hs
  | cons a as ih =>
    obtain ⟨u, hu, hrest⟩ := (exec_cons_eq_some step).mp hrun
    exact ih (hstep s a u hs hmeet.1 hu) (hmeet.2 u hu) hrest

/-- Along a run whose steps meet `C`, every step meets whatever `C` and an
invariant imply. -/
theorem StepsMeet.of_invariant {C D : σ → α → Prop} {I : σ → Prop}
    (hstep : ∀ s a t, I s → C s a → step s a = some t → I t)
    (himp : ∀ s a, I s → C s a → D s a) {s : σ} {as : List α} (hs : I s)
    (hmeet : StepsMeet step C s as) : StepsMeet step D s as := by
  induction as generalizing s with
  | nil => trivial
  | cons a as ih =>
    exact ⟨himp s a hs hmeet.1, fun t ht => ih (hstep s a t hs hmeet.1 ht) (hmeet.2 t ht)⟩

theorem StepsMeet.of_exec {C D : σ → α → Prop} {I : σ → Prop}
    (hstep : ∀ s a t, I s → C s a → step s a = some t → I t)
    (himp : ∀ s a t, I s → C s a → step s a = some t → D s a) {s t : σ} {as : List α} (hs : I s)
    (hmeet : StepsMeet step C s as) (hrun : exec step s as = some t) : StepsMeet step D s as := by
  induction as generalizing s with
  | nil => trivial
  | cons a as ih =>
    obtain ⟨u, hu, hrest⟩ := (exec_cons_eq_some step).mp hrun
    refine ⟨himp s a u hs hmeet.1 hu, ?_⟩
    intro v hv
    obtain rfl : u = v := Option.some.inj (hu.symm.trans hv)
    exact ih (hstep s a u hs hmeet.1 hu) (hmeet.2 u hu) hrest

theorem StepsMeet.and {C D : σ → α → Prop} {s : σ} {as : List α} (hC : StepsMeet step C s as)
    (hD : StepsMeet step D s as) : StepsMeet step (fun s a => C s a ∧ D s a) s as := by
  induction as generalizing s with
  | nil => trivial
  | cons a as ih => exact ⟨⟨hC.1, hD.1⟩, fun t ht => ih (hC.2 t ht) (hD.2 t ht)⟩

/-- The invariant rule: initial truth and preservation give truth along every run. -/
theorem exec_invariant {I : σ → Prop} (hstep : ∀ s a t, I s → step s a = some t → I t)
    {s t : σ} {as : List α} (hs : I s) (hrun : exec step s as = some t) : I t := by
  induction as generalizing s with
  | nil =>
    obtain rfl : s = t := by simpa using hrun
    exact hs
  | cons a as ih =>
    obtain ⟨u, hu, hrest⟩ := (exec_cons_eq_some step).mp hrun
    exact ih (hstep s a u hs hu) hrest

/-- A reflexive and transitive relation that every step respects, in states
satisfying an invariant, relates the two ends of every run. -/
theorem exec_relates {I : σ → Prop} {R : σ → σ → Prop} (refl : ∀ s, R s s)
    (trans : ∀ s t u, R s t → R t u → R s u)
    (hinv : ∀ s a t, I s → step s a = some t → I t)
    (hstep : ∀ s a t, I s → step s a = some t → R s t)
    {s t : σ} {as : List α} (hs : I s) (hrun : exec step s as = some t) : R s t := by
  induction as generalizing s with
  | nil =>
    obtain rfl : s = t := by simpa using hrun
    exact refl s
  | cons a as ih =>
    obtain ⟨u, hu, hrest⟩ := (exec_cons_eq_some step).mp hrun
    exact trans s u t (hstep s a u hs hu) (ih (hinv s a u hs hu) hrest)

/-- When each step that `pays` lowers a rank, and no step raises it by more than it `gains`, the
steps of a run that pay are bounded by the rank it starts with and what its steps gain. -/
theorem exec_countP_le_sum {I : σ → Prop} (rank : σ → ℕ) (pays : α → Bool) (gains : α → ℕ)
    (hinv : ∀ s a t, I s → step s a = some t → I t)
    (hstep : ∀ s a t, I s → step s a = some t →
      rank t + (if pays a then 1 else 0) ≤ rank s + gains a)
    {s t : σ} {as : List α} (hs : I s) (hrun : exec step s as = some t) :
    rank t + as.countP pays ≤ rank s + (as.map gains).sum := by
  induction as generalizing s with
  | nil =>
    obtain rfl : s = t := by simpa using hrun
    simp
  | cons a as ih =>
    obtain ⟨u, hu, hrest⟩ := (exec_cons_eq_some step).mp hrun
    have hfirst := hstep s a u hs hu
    have hothers := ih (hinv s a u hs hu) hrest
    rw [List.countP_cons, List.map_cons, List.sum_cons]
    omega

theorem exec_countP_le {I : σ → Prop} (rank : σ → ℕ) (pays gains : α → Bool) (k : ℕ)
    (hinv : ∀ s a t, I s → step s a = some t → I t)
    (hstep : ∀ s a t, I s → step s a = some t →
      rank t + (if pays a then 1 else 0) ≤ rank s + if gains a then k else 0)
    {s t : σ} {as : List α} (hs : I s) (hrun : exec step s as = some t) :
    rank t + as.countP pays ≤ rank s + k * as.countP gains := by
  have hsum : (as.map fun a => if gains a then k else 0).sum = k * as.countP gains := by
    clear hrun
    induction as with
    | nil => rfl
    | cons a as ih =>
      rw [List.map_cons, List.sum_cons, ih, List.countP_cons, mul_add, mul_ite, mul_one, mul_zero,
        Nat.add_comm]
  rw [← hsum]
  exact exec_countP_le_sum rank pays _ hinv hstep hs hrun

/-- Forward simulation: when related states answer each step `P` allows by a run
of the other system, they answer every run of such steps. -/
theorem exec_simulates {τ β : Type*} {step' : τ → β → Option τ} {R : σ → τ → Prop} {P : α → Prop}
    (hstep : ∀ s u a t, R s u → P a → step s a = some t →
      ∃ bs v, exec step' u bs = some v ∧ R t v)
    {s t : σ} {u : τ} {as : List α} (hR : R s u) (hP : ∀ a ∈ as, P a)
    (hrun : exec step s as = some t) : ∃ bs v, exec step' u bs = some v ∧ R t v := by
  induction as generalizing s u with
  | nil =>
    obtain rfl : s = t := by simpa using hrun
    exact ⟨[], u, rfl, hR⟩
  | cons a as ih =>
    obtain ⟨m, hm, hrest⟩ := (exec_cons_eq_some step).mp hrun
    obtain ⟨bs, v, hbs, hv⟩ := hstep s u a m hR (hP a List.mem_cons_self) hm
    obtain ⟨cs, w, hcs, hw⟩ := ih hv (fun b hb => hP b (List.mem_cons_of_mem _ hb)) hrest
    exact ⟨bs ++ cs, w, (exec_append_eq_some step').mpr ⟨v, hbs, hcs⟩, hw⟩

section Translation

variable {β γ τ : Type*}

/-- The actions of another system that the actions of a run stand for, in order. -/
def translate (step : σ → α → Option σ) (f : σ → α → Option β) : σ → List α → List β
  | _, [] => []
  | s, a :: as => (f s a).toList ++
    match step s a with
    | none => []
    | some t => translate step f t as

theorem translate_cons {f : σ → α → Option β} {s t : σ} {a : α} (as : List α)
    (h : step s a = some t) :
    translate step f s (a :: as) = (f s a).toList ++ translate step f t as := by
  simp only [translate, h]

theorem exec_translate {step' : τ → β → Option τ} {I : σ → Prop} (view : σ → τ)
    {f : σ → α → Option β} (hinv : ∀ s a t, I s → step s a = some t → I t)
    (hstep : ∀ s a t, I s → step s a = some t →
      exec step' (view s) (f s a).toList = some (view t))
    {s t : σ} {as : List α} (hs : I s) (hrun : exec step s as = some t) :
    exec step' (view s) (translate step f s as) = some (view t) := by
  induction as generalizing s with
  | nil =>
    obtain rfl : s = t := by simpa using hrun
    rfl
  | cons a as ih =>
    obtain ⟨u, hu, hrest⟩ := (exec_cons_eq_some step).mp hrun
    rw [translate_cons as hu, exec_append_eq_some]
    exact ⟨view u, hstep s a u hs hu, ih (hinv s a u hs hu) hrest⟩

/-- When each step takes what it stands for from what is pending and what it makes, a run has
made or had pending exactly what it stands for and what it leaves. -/
theorem translate_perm {f : σ → α → Option β} {pending : σ → List γ} {made : α → Option γ}
    {taken : β → Option γ}
    (hstep : ∀ s a t, step s a = some t →
      ((f s a).toList.filterMap taken ++ pending t).Perm (pending s ++ (made a).toList))
    {s t : σ} {as : List α} (hrun : exec step s as = some t) :
    ((translate step f s as).filterMap taken ++ pending t).Perm
      (pending s ++ as.filterMap made) := by
  induction as generalizing s with
  | nil =>
    obtain rfl : s = t := by simpa using hrun
    simp [translate]
  | cons a as ih =>
    obtain ⟨u, hu, hrest⟩ := (exec_cons_eq_some step).mp hrun
    have hmade : (a :: as).filterMap made = (made a).toList ++ as.filterMap made := by
      cases hmade : made a <;> simp [hmade]
    rw [translate_cons as hu, List.filterMap_append, hmade, List.append_assoc,
      ← List.append_assoc (pending s)]
    refine ((ih hrest).append_left _).trans ?_
    rw [← List.append_assoc]
    exact (hstep s a u hu).append_right _

end Translation

end CryptoCollector.Foundations

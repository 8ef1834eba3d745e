import Mathlib.Order.Bounds.Basic
import Mathlib.Tactic

/-!
# Timers of a sustained condition

A timer starts at the first reading that finds the condition, is kept while it lasts and is
dropped when it does not. In a history at times in order it shows the earliest reading from
which the condition has held without a break.
-/

namespace CryptoCollector.Foundations

variable {α τ : Type*} {holds : α → Bool} {time : α → τ} {l : List α} {first x : α} {t : τ}

/-- The timer after a history of readings. -/
def heldSince (holds : α → Bool) (time : α → τ) (l : List α) : Option τ :=
  l.foldl (fun since x => if holds x then some (since.getD (time x)) else none) none

/-- The history ends with readings, from `first` on, that all find the condition. -/
def HeldFrom (holds : α → Bool) (l : List α) (first : α) : Prop :=
  ∃ before after, l = before ++ first :: after ∧ ∀ x ∈ first :: after, holds x = true

@[simp] theorem heldSince_nil : heldSince holds time [] = none := rfl

theorem heldSince_concat (l : List α) (x : α) :
    heldSince holds time (l ++ [x]) =
      if holds x then some ((heldSince holds time l).getD (time x)) else none := by
  rw [heldSince, List.foldl_append]
  rfl

theorem HeldFrom.mem (h : HeldFrom holds l first) : first ∈ l := by
  obtain ⟨before, after, rfl, -⟩ := h
  exact List.mem_append_right _ List.mem_cons_self

theorem not_heldFrom_nil : ¬HeldFrom holds [] first := by
  intro h
  exact absurd h.mem List.not_mem_nil

/-- One more reading goes on with what held before or starts anew. -/
theorem heldFrom_concat :
    HeldFrom holds (l ++ [x]) first ↔ holds x = true ∧ (first = x ∨ HeldFrom holds l first) := by
  constructor
  · rintro ⟨before, after, heq, hall⟩
    rcases List.eq_nil_or_concat after with rfl | ⟨after, y, rfl⟩
    · obtain ⟨-, hlast⟩ := List.append_inj' heq rfl
      obtain rfl : x = first := List.singleton_inj.mp hlast
      exact ⟨hall x List.mem_cons_self, Or.inl rfl⟩
    · rw [List.concat_eq_append, ← List.cons_append, ← List.append_assoc] at heq
      obtain ⟨hfront, hlast⟩ := List.append_inj' heq rfl
      obtain rfl : x = y := List.singleton_inj.mp hlast
      refine ⟨hall x (by simp), Or.inr ⟨before, after, hfront, ?_⟩⟩
      intro z hz
      apply hall z
      rw [List.concat_eq_append, ← List.cons_append]
      exact List.mem_append_left _ hz
  · rintro ⟨hx, rfl | ⟨before, after, rfl, hall⟩⟩
    · exact ⟨l, [], rfl, by simpa using hx⟩
    · refine ⟨before, after ++ [x], by simp, ?_⟩
      intro z hz
      rcases List.mem_append.mp (List.cons_append ▸ hz) with hz | hz
      · exact hall z hz
      · rwa [List.mem_singleton.mp hz]

theorem heldSince_eq_none_iff :
    heldSince holds time l = none ↔ ∀ first, ¬HeldFrom holds l first := by
  induction l using List.reverseRecOn with
  | nil => exact ⟨fun _ _ => not_heldFrom_nil, fun _ => rfl⟩
  | append_singleton l x ih =>
    rw [heldSince_concat]
    split_ifs with hx
    · simp only [false_iff, not_forall, not_not]
      exact ⟨x, heldFrom_concat.mpr ⟨hx, Or.inl rfl⟩⟩
    · simp only [true_iff]
      intro first hfirst
      exact hx (heldFrom_concat.mp hfirst).1

/-- A timer that is on shows the earliest of the readings from which the condition held. -/
theorem heldSince_isLeast [LinearOrder τ] (hordered : l.Pairwise fun x y => time x ≤ time y)
    (h : heldSince holds time l = some t) :
    IsLeast {u | ∃ first, HeldFrom holds l first ∧ time first = u} t := by
  induction l using List.reverseRecOn generalizing t with
  | nil => cases h
  | append_singleton l x ih =>
    obtain ⟨hl, -, hlast⟩ := List.pairwise_append.mp hordered
    rw [heldSince_concat] at h
    split_ifs at h with hx
    cases hsince : heldSince holds time l with
    | none =>
      rw [hsince] at h
      obtain rfl : time x = t := Option.some.inj h
      constructor
      · exact ⟨x, heldFrom_concat.mpr ⟨hx, Or.inl rfl⟩, rfl⟩
      · rintro u ⟨first, hfirst, rfl⟩
        rcases (heldFrom_concat.mp hfirst).2 with rfl | hbefore
        · exact le_rfl
        · exact absurd hbefore (heldSince_eq_none_iff.mp hsince first)
    | some since =>
      rw [hsince] at h
      obtain rfl : since = t := Option.some.inj h
      obtain ⟨⟨earliest, hearliest, htime⟩, hleast⟩ := ih hl hsince
      constructor
      · exact ⟨earliest, heldFrom_concat.mpr ⟨hx, Or.inr hearliest⟩, htime⟩
      · rintro u ⟨first, hfirst, rfl⟩
        rcases (heldFrom_concat.mp hfirst).2 with rfl | hbefore
        · rw [← htime]
          exact hlast earliest hearliest.mem first (List.mem_singleton.mpr rfl)
        · exact hleast ⟨first, hbefore, rfl⟩

/-- A condition on the timer that earlier times meet too is one on some run of readings. -/
theorem exists_heldSince_iff [LinearOrder τ] (hordered : l.Pairwise fun x y => time x ≤ time y)
    {p : τ → Prop} (hp : ∀ t u, t ≤ u → p u → p t) :
    (∃ t, heldSince holds time l = some t ∧ p t) ↔
      ∃ first, HeldFrom holds l first ∧ p (time first) := by
  constructor
  · rintro ⟨t, ht, hpt⟩
    obtain ⟨⟨first, hfirst, rfl⟩, -⟩ := heldSince_isLeast hordered ht
    exact ⟨first, hfirst, hpt⟩
  · rintro ⟨first, hfirst, hpf⟩
    cases hsince : heldSince holds time l with
    | none => exact absurd hfirst (heldSince_eq_none_iff.mp hsince first)
    | some t =>
      have hle := (heldSince_isLeast hordered hsince).2 ⟨first, hfirst, rfl⟩
      exact ⟨t, rfl, hp t (time first) hle hpf⟩

end CryptoCollector.Foundations

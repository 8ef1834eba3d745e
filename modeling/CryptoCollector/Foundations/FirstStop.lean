import Mathlib.Data.List.Basic

/-!
# Walks up to the first stop

The members of a list are visited in order; each visit has an outcome, and the
first outcome that stops the walk is the last. Outcomes may depend on anything,
so a walk is a relation between the members and the visits made.
-/

namespace CryptoCollector.Foundations

variable {α β : Type*} {stops : β → Prop} {members : List α} {visits : List (α × β)}

/-- The visits of a walk of the members, up to and including the first that stops. -/
inductive UpToFirst (stops : β → Prop) : List α → List (α × β) → Prop
  | done : UpToFirst stops [] []
  | stop {x members b} : stops b → UpToFirst stops (x :: members) [(x, b)]
  | next {x members b visits} : ¬stops b → UpToFirst stops members visits →
      UpToFirst stops (x :: members) ((x, b) :: visits)

theorem UpToFirst.map_fst_prefix (h : UpToFirst stops members visits) :
    visits.map Prod.fst <+: members := by
  induction h with
  | done => exact List.prefix_rfl
  | stop _ => exact List.cons_prefix_cons.mpr ⟨rfl, List.nil_prefix⟩
  | next _ _ ih => exact List.cons_prefix_cons.mpr ⟨rfl, ih⟩

/-- Either nothing stopped the walk and everybody was visited, or the last visit
is the only one that stops. -/
theorem UpToFirst.ends (h : UpToFirst stops members visits) :
    (visits.map Prod.fst = members ∧ ∀ v ∈ visits, ¬stops v.2) ∨
      ∃ before last, visits = before ++ [last] ∧ stops last.2 ∧ ∀ v ∈ before, ¬stops v.2 := by
  induction h with
  | done => exact Or.inl ⟨rfl, by simp⟩
  | @stop x _ b hb => exact Or.inr ⟨[], (x, b), rfl, hb, by simp⟩
  | @next x _ b _ hb _ ih =>
    rcases ih with ⟨hall, hnone⟩ | ⟨before, last, rfl, hlast, hnone⟩
    · exact Or.inl ⟨by simp [hall], List.forall_mem_cons.mpr ⟨hb, hnone⟩⟩
    · exact Or.inr ⟨(x, b) :: before, last, rfl, hlast, List.forall_mem_cons.mpr ⟨hb, hnone⟩⟩

end CryptoCollector.Foundations

import CryptoCollector.Foundations.KeyedTable

/-!
# Updates that move rows to other keys

An update writes its rows one after the other, and each is held against the key as it comes.
It goes through when the rows move to keys that are free and that differ from one another.
-/

namespace CryptoCollector.Foundations
namespace KeyedTable

variable {α κ : Type*} {key : α → κ} {t t' : KeyedTable key} {old new z : α}

@[simp] theorem mem_erase {p : α → Bool} : z ∈ (t.erase p).rows ↔ z ∈ t.rows ∧ p z = false := by
  simp [erase]

variable [DecidableEq κ]

/-- `new` takes the place of `old`, unless another row has its key. -/
def replaceRow (t : KeyedTable key) (old new : α) : Option (KeyedTable key) :=
  (t.erase fun x => key x = key old).insertAll [new]

/-- `UPDATE` of the rows `xs`, in that order. It is aborted when a value it sets is missing or
a key it moves a row to is taken. -/
def updateEach (set : α → Option α) (t : KeyedTable key) (xs : List α) :
    Option (KeyedTable key) :=
  xs.foldlM (fun t x => (set x).bind fun y => t.replaceRow x y) t

variable {set : α → Option α} {f : α → α} {x : α} {xs : List α}

theorem exists_replaceRow (old : α) (hfree : ∀ y ∈ t.rows, key new ≠ key y) :
    ∃ t', t.replaceRow old new = some t' ∧
      ∀ z, z ∈ t'.rows ↔ (z ∈ t.rows ∧ key z ≠ key old) ∨ z = new := by
  have hnodup : (((t.erase fun x => key x = key old).rows ++ [new]).map key).Nodup := by
    rw [List.map_append, List.map_singleton, List.nodup_append]
    refine ⟨(t.erase _).unique, List.nodup_singleton _, ?_⟩
    intro k hk k' hk' heq
    obtain ⟨y, hy, rfl⟩ := List.mem_map.mp hk
    rw [List.mem_singleton] at hk'
    exact hfree y (mem_erase.mp hy).1 (heq.trans hk').symm
  refine ⟨⟨_, hnodup⟩, insertAll_eq_some_iff.mpr rfl, ?_⟩
  intro z
  rw [List.mem_append, mem_erase, List.mem_singleton, decide_eq_false_iff_not]

/-- The rows `xs` of the table move by `f` to free keys of their own. -/
structure MovesFree (t : KeyedTable key) (f : α → α) (xs : List α) : Prop where
  rows : ∀ x ∈ xs, x ∈ t.rows
  nodup : xs.Nodup
  free : ∀ x ∈ xs, ∀ y ∈ t.rows, key (f x) ≠ key y
  apart : (xs.map fun x => key (f x)).Nodup

theorem MovesFree.exists_step (h : MovesFree t f (x :: xs)) :
    ∃ t', t.replaceRow x (f x) = some t' ∧
      (∀ z, z ∈ t'.rows ↔ (z ∈ t.rows ∧ z ≠ x) ∨ z = f x) ∧ MovesFree t' f xs := by
  have hx : x ∈ t.rows := h.rows x List.mem_cons_self
  obtain ⟨hnot, hnodup⟩ := List.nodup_cons.mp h.nodup
  obtain ⟨hkey, hapart⟩ := List.nodup_cons.mp h.apart
  obtain ⟨t', hstep, hmem⟩ := exists_replaceRow x (h.free x List.mem_cons_self)
  -- a row has its key to itself, so `x` is the only row the step takes away
  have hrows (z : α) : z ∈ t'.rows ↔ (z ∈ t.rows ∧ z ≠ x) ∨ z = f x := by
    rw [hmem]
    apply or_congr_left
    apply and_congr_right
    intro hz
    rw [ne_eq, ne_eq, not_iff_not]
    exact ⟨List.inj_on_of_nodup_map t.unique hz hx, congrArg key⟩
  refine ⟨t', hstep, hrows, ?_, hnodup, ?_, hapart⟩
  · intro y hy
    have hne : y ≠ x := fun heq => hnot (heq ▸ hy)
    exact (hrows y).mpr (Or.inl ⟨h.rows y (List.mem_cons_of_mem _ hy), hne⟩)
  · intro y hy z hz heq
    rcases (hrows z).mp hz with ⟨hz, -⟩ | rfl
    · exact h.free y (List.mem_cons_of_mem _ hy) z hz heq
    · exact hkey (List.mem_map.mpr ⟨y, hy, heq⟩)

/-- Rows that move to free keys of their own all arrive, and the others stay. -/
theorem MovesFree.exists_updateEach (h : MovesFree t f xs)
    (hset : ∀ x ∈ xs, set x = some (f x)) :
    ∃ t', t.updateEach set xs = some t' ∧
      ∀ z, z ∈ t'.rows ↔ (z ∈ t.rows ∧ z ∉ xs) ∨ ∃ x ∈ xs, f x = z := by
  induction xs generalizing t with
  | nil => exact ⟨t, rfl, fun z => by simp⟩
  | cons x xs ih =>
    obtain ⟨t₁, hstep, hmem₁, hrest⟩ := h.exists_step
    obtain ⟨t', hrun, hmem⟩ := ih hrest fun y hy => hset y (List.mem_cons_of_mem _ hy)
    refine ⟨t', ?_, ?_⟩
    · rw [updateEach, List.foldlM_cons, hset x List.mem_cons_self, Option.bind_some, hstep]
      exact hrun
    · intro z
      have hmoved : f x ∉ xs := by
        intro hfx
        exact h.free x List.mem_cons_self (f x) (h.rows _ (List.mem_cons_of_mem _ hfx)) rfl
      rw [hmem, hmem₁, List.mem_cons, not_or, List.exists_mem_cons_iff]
      constructor
      · rintro (⟨⟨hz, hne⟩ | rfl, hnot⟩ | hlater)
        · exact Or.inl ⟨hz, hne, hnot⟩
        · exact Or.inr (Or.inl rfl)
        · exact Or.inr (Or.inr hlater)
      · rintro (⟨hz, hne, hnot⟩ | rfl | hlater)
        · exact Or.inl ⟨Or.inl ⟨hz, hne⟩, hnot⟩
        · exact Or.inl ⟨Or.inr rfl, hmoved⟩
        · exact Or.inr hlater

end KeyedTable
end CryptoCollector.Foundations

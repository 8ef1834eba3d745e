import Mathlib.Data.List.Nodup
import Mathlib.Data.List.Basic

/-!
# Tables

A table is a list of rows; a key function names each row. `updateWhere` is an
update statement with a condition, `Keyed` the primary key constraint.
-/

namespace CryptoCollector.Foundations

variable {ρ κ : Type*}

/-- Apply `f` to the rows that satisfy the condition, leave the others. -/
def updateWhere (p : ρ → Prop) [DecidablePred p] (f : ρ → ρ) (table : List ρ) : List ρ :=
  table.map fun row => if p row then f row else row

/-- No two rows share a key. -/
def Keyed (key : ρ → κ) (table : List ρ) : Prop := (table.map key).Nodup

section UpdateWhere

variable {p : ρ → Prop} [DecidablePred p] {f : ρ → ρ} {table : List ρ}

theorem mem_updateWhere {row : ρ} :
    row ∈ updateWhere p f table ↔
      (∃ old ∈ table, p old ∧ row = f old) ∨ (row ∈ table ∧ ¬p row) := by
  simp only [updateWhere, List.mem_map]
  constructor
  · rintro ⟨old, hold, rfl⟩
    by_cases hp : p old
    · exact Or.inl ⟨old, hold, hp, if_pos hp⟩
    · simp only [if_neg hp]
      exact Or.inr ⟨hold, hp⟩
  · rintro (⟨old, hold, hp, rfl⟩ | ⟨hrow, hp⟩)
    · exact ⟨old, hold, if_pos hp⟩
    · exact ⟨row, hrow, if_neg hp⟩

theorem map_key_updateWhere {key : ρ → κ} (hkey : ∀ row, p row → key (f row) = key row) :
    (updateWhere p f table).map key = table.map key := by
  simp only [updateWhere, List.map_map]
  apply List.map_congr_left
  intro row _
  by_cases hp : p row <;> simp [hp, hkey]

theorem exists_mem_updateWhere {key : ρ → κ} (hkey : ∀ row, p row → key (f row) = key row)
    {row : ρ} (hrow : row ∈ table) : ∃ row' ∈ updateWhere p f table, key row' = key row := by
  rw [← List.mem_map, map_key_updateWhere hkey]
  exact List.mem_map_of_mem hrow

theorem Keyed.updateWhere {key : ρ → κ} (hkey : ∀ row, p row → key (f row) = key row)
    (h : Keyed key table) : Keyed key (updateWhere p f table) := by
  unfold Keyed
  rwa [map_key_updateWhere hkey]

end UpdateWhere

/-- A key that no row has after the keys were kept, no row had before. -/
theorem key_ne_of_kept {key : ρ → κ} {table table' : List ρ}
    (hkept : ∀ row ∈ table, ∃ row' ∈ table', key row' = key row) {k : κ}
    (hnone : ∀ row ∈ table', key row ≠ k) : ∀ row ∈ table, key row ≠ k := by
  intro row hrow hk
  obtain ⟨row', hrow', hsame⟩ := hkept row hrow
  exact hnone row' hrow' (hsame.trans hk)

theorem Keyed.eq_of_mem {key : ρ → κ} {table : List ρ} (h : Keyed key table) {a b : ρ}
    (ha : a ∈ table) (hb : b ∈ table) (hab : key a = key b) : a = b :=
  List.inj_on_of_nodup_map h ha hb hab

theorem Keyed.cons {key : ρ → κ} {table : List ρ} (h : Keyed key table) {row : ρ}
    (hfresh : ∀ old ∈ table, key old ≠ key row) : Keyed key (row :: table) := by
  unfold Keyed
  rw [List.map_cons, List.nodup_cons]
  refine ⟨?_, h⟩
  intro hmem
  obtain ⟨old, hold, heq⟩ := List.mem_map.mp hmem
  exact hfresh old hold heq

end CryptoCollector.Foundations

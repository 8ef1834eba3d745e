import CryptoCollector.Foundations.Ascending
import Mathlib.Data.List.ReduceOption

/-!
# Recursive queries

`WITH RECURSIVE .. UNION ALL` over nullable rows, as the working table it keeps, and
the loose index scan written with it: from the least value on, the next greater one
is looked up until there is none.
-/

namespace CryptoCollector.Foundations

variable {α κ : Type*} [LinearOrder κ] {key : α → κ}

/-- `ORDER BY key LIMIT 1`. -/
def firstBy (key : α → κ) (l : List α) : Option α := (sortBy key l).head?

theorem firstBy_eq_none_iff {l : List α} : firstBy key l = none ↔ l = [] := by
  rw [firstBy, List.head?_eq_none_iff, List.eq_nil_iff_forall_not_mem,
    List.eq_nil_iff_forall_not_mem]
  simp only [mem_sortBy]

theorem firstBy_mem {l : List α} {x : α} (h : firstBy key l = some x) : x ∈ l :=
  (mem_sortBy key).mp (List.mem_of_mem_head? h)

theorem firstBy_le {l : List α} {x y : α} (h : firstBy key l = some x) (hy : y ∈ l) :
    key x ≤ key y := by
  have hsorted : (sortBy key l).Pairwise fun x y => key x ≤ key y :=
    List.pairwise_insertionSort (fun x y => key x ≤ key y) l
  obtain ⟨rest, hrest⟩ := List.head?_eq_some_iff.mp h
  rw [← mem_sortBy key, hrest] at hy
  rw [hrest] at hsorted
  rcases List.mem_cons.mp hy with rfl | hmem
  · exact le_rfl
  · exact (List.pairwise_cons.mp hsorted).1 y hmem

/-- The rows of a recursive query from a working table on, if it empties the table in
so many rounds. -/
def unionAllFrom (step : α → List α) : ℕ → List α → Option (List α)
  | _, [] => some []
  | 0, _ :: _ => none
  | fuel + 1, row :: working =>
    (unionAllFrom step fuel ((row :: working).flatMap step)).map (row :: working ++ ·)

theorem unionAllFrom_mono {step : α → List α} {fuel fuel' : ℕ} (hle : fuel ≤ fuel')
    {working rows : List α} (h : unionAllFrom step fuel working = some rows) :
    unionAllFrom step fuel' working = some rows := by
  induction fuel generalizing fuel' working rows with
  | zero =>
    cases working with
    | nil =>
      cases fuel' <;> exact h
    | cons row working => cases h
  | succ fuel ih =>
    cases working with
    | nil =>
      cases fuel' <;> exact h
    | cons row working =>
      obtain ⟨fuel'', rfl⟩ := Nat.exists_eq_add_of_le' (Nat.one_le_of_lt hle)
      obtain ⟨rest, hrest, rfl⟩ := Option.map_eq_some_iff.mp h
      exact Option.map_eq_some_iff.mpr ⟨rest, ih (by omega) hrest, rfl⟩

/-- The recursive term: the next greater value after a row that is not null. -/
def nextAfter (key : α → κ) (l : List α) : Option α → List (Option α)
  | some x => [firstBy key (l.filter fun y => key x < key y)]
  | none => []

/-- The loose index scan over the values `l`. -/
def looseScan (key : α → κ) (l : List α) (fuel : ℕ) : Option (List (Option α)) :=
  unionAllFrom (nextAfter key l) fuel ((firstBy key l).toList.map some)

/-- From a value on, the scan finds the greater ones in order. -/
theorem looseScan_from (l : List α) (hinj : Function.Injective key) (fuel : ℕ) {x : α}
    (hfuel : l.length + 2 ≤ fuel + countUpTo key l (key x)) :
    ∃ rest, unionAllFrom (nextAfter key l) fuel [some x] = some (some x :: rest) ∧
      Ascending key rest.reduceOption ∧
      ∀ y, y ∈ rest.reduceOption ↔ y ∈ l ∧ key x < key y := by
  induction fuel generalizing x with
  | zero =>
    have hcount := countUpTo_le_length key l (key x)
    omega
  | succ fuel ih =>
    have hstep : unionAllFrom (nextAfter key l) (fuel + 1) [some x] =
        (unionAllFrom (nextAfter key l) fuel
          [firstBy key (l.filter fun y => key x < key y)]).map ([some x] ++ ·) := by
      simp [unionAllFrom, nextAfter]
    cases hnext : firstBy key (l.filter fun y => key x < key y) with
    | none =>
      have hempty := firstBy_eq_none_iff.mp hnext
      have hcount := countUpTo_le_length key l (key x)
      obtain ⟨fuel', rfl⟩ := Nat.exists_eq_add_of_le' (by omega : 1 ≤ fuel)
      have hnull : unionAllFrom (nextAfter key l) (fuel' + 1) [none] = some [none] := by
        cases fuel' <;> simp [unionAllFrom, nextAfter]
      refine ⟨[none], by rw [hstep, hnext, hnull]; rfl, List.Pairwise.nil, ?_⟩
      intro y
      have hy := List.filter_eq_nil_iff.mp hempty y
      simpa using hy
    | some z =>
      obtain ⟨hz, hxz⟩ := List.mem_filter.mp (firstBy_mem hnext)
      rw [decide_eq_true_eq] at hxz
      have hcount := countUpTo_lt key hz hxz
      obtain ⟨rest, hrest, hasc, hmem⟩ := ih (x := z) (by omega)
      refine ⟨some z :: rest, by rw [hstep, hnext, hrest]; rfl, ?_, ?_⟩
      · exact List.pairwise_cons.mpr ⟨fun y hy => ((hmem y).mp hy).2, hasc⟩
      · intro y
        rw [List.reduceOption_cons_of_some, List.mem_cons, hmem y]
        constructor
        · rintro (rfl | ⟨hy, hlt⟩)
          · exact ⟨hz, hxz⟩
          · exact ⟨hy, hxz.trans hlt⟩
        · rintro ⟨hy, hlt⟩
          have hle : key z ≤ key y :=
            firstBy_le hnext (List.mem_filter.mpr ⟨hy, by simpa using hlt⟩)
          rcases eq_or_lt_of_le hle with heq | hgreater
          · exact Or.inl (hinj heq).symm
          · exact Or.inr ⟨hy, hgreater⟩

/-- The scan ends, and has found every value once. -/
theorem looseScan_spec (l : List α) (hinj : Function.Injective key) :
    ∃ found, (∀ fuel, l.length + 2 ≤ fuel → looseScan key l fuel = some found) ∧
      Ascending key found.reduceOption ∧ ∀ x, x ∈ found.reduceOption ↔ x ∈ l := by
  cases hfirst : firstBy key l with
  | none =>
    obtain rfl := firstBy_eq_none_iff.mp hfirst
    refine ⟨[], fun fuel _ => ?_, List.Pairwise.nil, by simp⟩
    simp [looseScan, hfirst, unionAllFrom]
  | some x =>
    obtain ⟨rest, hrest, hasc, hmem⟩ := looseScan_from l hinj (l.length + 2) (x := x) (by omega)
    refine ⟨some x :: rest, fun fuel hfuel => ?_, ?_, ?_⟩
    · have hscan := unionAllFrom_mono hfuel hrest
      simpa [looseScan, hfirst] using hscan
    · exact List.pairwise_cons.mpr ⟨fun y hy => ((hmem y).mp hy).2, hasc⟩
    · intro y
      rw [List.reduceOption_cons_of_some, List.mem_cons, hmem y]
      constructor
      · rintro (rfl | ⟨hy, -⟩)
        · exact firstBy_mem hfirst
        · exact hy
      · intro hy
        rcases eq_or_lt_of_le (firstBy_le hfirst hy) with heq | hlt
        · exact Or.inl (hinj heq).symm
        · exact Or.inr ⟨hy, hlt⟩

end CryptoCollector.Foundations

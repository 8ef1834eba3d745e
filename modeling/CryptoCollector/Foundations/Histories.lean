import CryptoCollector.Foundations.Ascending

/-!
# Histories

A history is a list that only grows at its end. Its entries are numbered by their
places, each is stamped later than those before it, and it is read as of a stamp:
the last entry that is not later.
-/

namespace CryptoCollector.Foundations

variable {α κ : Type*}

/-- Every entry bears the number of its place. -/
def Numbered (number : α → ℤ) (l : List α) : Prop :=
  ∀ (i : ℕ) (x : α), l[i]? = some x → number x = i

theorem numbered_nil (number : α → ℤ) : Numbered number [] := by
  intro i x h
  simp at h

theorem Numbered.concat {number : α → ℤ} {l : List α} (h : Numbered number l) {x : α}
    (hx : number x = l.length) : Numbered number (l ++ [x]) := by
  intro i y hy
  rcases Nat.lt_trichotomy i l.length with hlt | rfl | hgt
  · rw [List.getElem?_append_left hlt] at hy
    exact h i y hy
  · rw [List.getElem?_concat_length] at hy
    cases hy
    exact hx
  · rw [List.getElem?_eq_none (by simp only [List.length_append, List.length_singleton]; omega)]
      at hy
    cases hy

theorem Numbered.exists_iff {number : α → ℤ} {l : List α} (h : Numbered number l) {k : ℤ} :
    (∃ x ∈ l, number x = k) ↔ 0 ≤ k ∧ k < l.length := by
  constructor
  · rintro ⟨x, hx, rfl⟩
    obtain ⟨i, hi⟩ := List.mem_iff_getElem?.mp hx
    have hlt : i < l.length := (List.getElem?_eq_some_iff.mp hi).1
    rw [h i x hi]
    omega
  · rintro ⟨hlow, hhigh⟩
    have hlt : k.toNat < l.length := by omega
    refine ⟨l[k.toNat], List.getElem_mem hlt, ?_⟩
    rw [h k.toNat _ (List.getElem?_eq_getElem hlt)]
    omega

theorem Numbered.ascending {number : α → ℤ} {l : List α} (h : Numbered number l) :
    Ascending number l := by
  refine List.pairwise_iff_getElem.mpr ?_
  intro i j hi hj hij
  rw [h i _ (List.getElem?_eq_getElem hi), h j _ (List.getElem?_eq_getElem hj)]
  omega

/-- What holds of neighbours holds of entries with neighbouring numbers. -/
theorem Numbered.rel_of_succ {number : α → ℤ} {R : α → α → Prop} {l : List α}
    (h : Numbered number l) (hchain : l.IsChain R) {x y : α} (hx : x ∈ l) (hy : y ∈ l)
    (hsucc : number y = number x + 1) : R x y := by
  obtain ⟨i, hi, rfl⟩ := List.mem_iff_getElem.mp hx
  obtain ⟨j, hj, rfl⟩ := List.mem_iff_getElem.mp hy
  rw [h i _ (List.getElem?_eq_getElem hi), h j _ (List.getElem?_eq_getElem hj)] at hsucc
  obtain rfl : j = i + 1 := by omega
  exact hchain.getElem i hj

theorem isChain_concat {R : α → α → Prop} {l : List α} (h : l.IsChain R) {x : α}
    (hx : ∀ last, l.getLast? = some last → R last x) : (l ++ [x]).IsChain R := by
  refine List.isChain_append.mpr ⟨h, List.isChain_singleton x, ?_⟩
  intro last hlast y hy
  cases hy
  exact hx last hlast

section Stamps

variable [LinearOrder κ] {stamp : α → κ} {l : List α} {t : κ}

/-- The first of the greatest entries. -/
def greatest (stamp : α → κ) (l : List α) : Option α := l.argmax stamp

theorem Ascending.greatest_eq (h : Ascending stamp l) : greatest stamp l = l.getLast? := by
  unfold greatest
  cases hlast : l.getLast? with
  | none =>
    rw [List.getLast?_eq_none_iff.mp hlast]
    rfl
  | some x =>
    cases hmax : l.argmax stamp with
    | none =>
      rw [List.argmax_eq_none.mp hmax] at hlast
      cases hlast
    | some y =>
      have hx : x ∈ l := List.mem_of_getLast? hlast
      have hy : y ∈ l := List.argmax_mem hmax
      have hkey : stamp y = stamp x :=
        le_antisymm (h.le_getLast hy hlast) (List.le_of_mem_argmax hx hmax)
      rw [h.key_inj hy hx hkey]

/-- The entry in effect at `t`: the last not stamped later. -/
def asOf (stamp : α → κ) (l : List α) (t : κ) : Option α :=
  (l.filter fun x => stamp x ≤ t).getLast?

/-- Growth does not change the past. -/
theorem asOf_append {later : List α} (hlater : ∀ x ∈ later, t < stamp x) :
    asOf stamp (l ++ later) t = asOf stamp l t := by
  have hnone : (later.filter fun x => stamp x ≤ t) = [] := by
    rw [List.filter_eq_nil_iff]
    intro x hx
    simpa using hlater x hx
  rw [asOf, List.filter_append, hnone, List.append_nil, asOf]

theorem asOf_of_forall_le (h : ∀ x ∈ l, stamp x ≤ t) : asOf stamp l t = l.getLast? := by
  have hall : (l.filter fun x => stamp x ≤ t) = l := by
    rw [List.filter_eq_self]
    intro x hx
    simpa using h x hx
  rw [asOf, hall]

theorem Ascending.greatest_filter (h : Ascending stamp l) :
    greatest stamp (l.filter fun x => stamp x ≤ t) = asOf stamp l t :=
  (h.filter _).greatest_eq

end Stamps

end CryptoCollector.Foundations

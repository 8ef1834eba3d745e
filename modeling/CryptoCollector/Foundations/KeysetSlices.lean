import CryptoCollector.Foundations.Ascending

/-!
# Keyset slices

An ascending list read in slices: each starts after the key the one before ended
with and takes as many entries as its own limit allows. Whatever the limits, the
slices end and together are the list.
-/

namespace CryptoCollector.Foundations

variable {α κ : Type*} [LinearOrder κ] {key : α → κ} {full : List α}

/-- The entries after the cursor; all of them after no cursor. -/
def after (key : α → κ) (full : List α) (cursor : Option κ) : List α :=
  full.filter fun x => cursor.all fun c => c < key x

@[simp] theorem after_none (key : α → κ) (full : List α) : after key full none = full := by
  simp [after]

theorem mem_after {cursor : Option κ} {x : α} :
    x ∈ after key full cursor ↔ x ∈ full ∧ ∀ c ∈ cursor, c < key x := by
  cases cursor <;> simp [after]

theorem after_ascending (h : Ascending key full) (cursor : Option κ) :
    Ascending key (after key full cursor) := h.filter _

theorem after_some_eq {cursor : Option κ} {k : κ} (hk : ∀ c ∈ cursor, c < k) :
    after key full (some k) = (after key full cursor).filter fun x => k < key x := by
  rw [after, after, List.filter_filter]
  apply List.filter_congr
  intro x _
  cases cursor with
  | none => simp
  | some c =>
    have hck := hk c rfl
    by_cases hx : k < key x
    · simp [hx, hck.trans hx]
    · simp [hx]

/-- A slice and what follows its last key are what follows the cursor. -/
theorem take_append_after (h : Ascending key full) {cursor : Option κ} {n : ℕ} {k : κ}
    (hlast : ((after key full cursor).take n).getLast?.map key = some k) :
    (after key full cursor).take n ++ after key full (some k) = after key full cursor := by
  obtain ⟨y, hy, rfl⟩ := Option.map_eq_some_iff.mp hlast
  have hasc := after_ascending h cursor
  have hyTake : y ∈ (after key full cursor).take n := List.mem_of_getLast? hy
  have hyAfter := mem_after.mp (List.mem_of_mem_take hyTake)
  rw [after_some_eq hyAfter.2]
  have htake : ((after key full cursor).take n).filter (fun x => key y < key x) = [] := by
    rw [List.filter_eq_nil_iff]
    intro x hx
    have hle := Ascending.le_getLast (List.Pairwise.sublist (List.take_sublist n _) hasc) hx hy
    simpa using hle
  have hdrop : ((after key full cursor).drop n).filter (fun x => key y < key x) =
      (after key full cursor).drop n := by
    rw [List.filter_eq_self]
    intro x hx
    rw [← List.take_append_drop n (after key full cursor)] at hasc
    simpa using (List.pairwise_append.mp hasc).2.2 y hyTake x hx
  conv_lhs => rw [← List.take_append_drop n (after key full cursor)]
  rw [List.filter_append, htake, hdrop, List.nil_append, List.take_append_drop,
    List.take_append_drop]

/-- The slices from a cursor on under the limits, to the one that takes all that is left. -/
inductive Slices (key : α → κ) (full : List α) : (ℕ → ℕ) → Option κ → List (List α) → Prop
  | last {limits : ℕ → ℕ} {cursor : Option κ} :
      (after key full cursor).length ≤ limits 0 →
      Slices key full limits cursor [after key full cursor]
  | more {limits : ℕ → ℕ} {cursor : Option κ} {k : κ} {slices : List (List α)} :
      limits 0 < (after key full cursor).length →
      ((after key full cursor).take (limits 0)).getLast?.map key = some k →
      Slices key full (fun i => limits (i + 1)) (some k) slices →
      Slices key full limits cursor ((after key full cursor).take (limits 0) :: slices)

theorem Slices.flatten_eq (h : Ascending key full) {limits : ℕ → ℕ} {cursor : Option κ}
    {slices : List (List α)} (hslices : Slices key full limits cursor slices) :
    slices.flatten = after key full cursor := by
  induction hslices with
  | last hfits => simp
  | more hmore hlast _ ih => rw [List.flatten_cons, ih, take_append_after h hlast]

/-- The slices end when each takes something. -/
theorem exists_slices (h : Ascending key full) {limits : ℕ → ℕ} (hpos : ∀ i, 0 < limits i)
    (cursor : Option κ) : ∃ slices, Slices key full limits cursor slices := by
  induction hcount : (after key full cursor).length using Nat.strong_induction_on
    generalizing limits cursor with
  | _ count ih =>
    by_cases hfits : (after key full cursor).length ≤ limits 0
    · exact ⟨_, Slices.last hfits⟩
    · have hmore := not_le.mp hfits
      have hne : (after key full cursor).take (limits 0) ≠ [] := by
        intro hnil
        have hlength := congrArg List.length hnil
        rw [List.length_take, List.length_nil] at hlength
        have := hpos 0
        omega
      obtain ⟨y, hy⟩ := Option.ne_none_iff_exists'.mp (mt List.getLast?_eq_none_iff.mp hne)
      have hlast : ((after key full cursor).take (limits 0)).getLast?.map key = some (key y) := by
        rw [hy, Option.map_some]
      have hsmaller : (after key full (some (key y))).length < count := by
        have hsplit := congrArg List.length (take_append_after h hlast)
        rw [List.length_append, List.length_take] at hsplit
        have := hpos 0
        omega
      obtain ⟨slices, hslices⟩ := ih _ hsmaller (fun i => hpos (i + 1)) (some (key y)) rfl
      exact ⟨_, Slices.more hmore hlast hslices⟩

end CryptoCollector.Foundations

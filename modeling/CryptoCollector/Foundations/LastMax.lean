import Mathlib.Order.Basic
import Mathlib.Tactic

/-!
# The last of the greatest entries

A maximum that keeps the later of two equal entries depends on the order of its list when
different entries share the greatest key, and only then.
-/

namespace CryptoCollector.Foundations

variable {α κ : Type*} [LinearOrder κ] {key : α → κ} {l l' : List α} {p : α → Bool} {x y : α}

/-- `Iterator::max_by`: the last of the greatest entries. -/
def lastMax (key : α → κ) : List α → Option α
  | [] => none
  | x :: l => some (l.foldl (fun best y => if key y < key best then best else y) x)

/-- No entry of the list has a greater key. -/
def TopEntry (key : α → κ) (l : List α) (x : α) : Prop := x ∈ l ∧ ∀ y ∈ l, key y ≤ key x

theorem TopEntry.of_perm (h : TopEntry key l x) (hperm : l.Perm l') : TopEntry key l' x :=
  ⟨hperm.mem_iff.mp h.1, fun y hy => h.2 y (hperm.mem_iff.mpr hy)⟩

theorem topEntry_foldl (l : List α) (x : α) :
    TopEntry key (x :: l) (l.foldl (fun best y => if key y < key best then best else y) x) := by
  induction l generalizing x with
  | nil =>
    refine ⟨List.mem_cons_self, ?_⟩
    intro y hy
    rw [List.mem_singleton.mp hy]
    rfl
  | cons y l ih =>
    rw [List.foldl_cons]
    split_ifs with hlt
    · obtain ⟨hmem, htop⟩ := ih x
      constructor
      · rcases List.mem_cons.mp hmem with heq | hrest
        · rw [heq]
          exact List.mem_cons_self
        · exact List.mem_cons_of_mem _ (List.mem_cons_of_mem _ hrest)
      · intro z hz
        rcases List.mem_cons.mp hz with rfl | hz
        · exact htop z List.mem_cons_self
        · rcases List.mem_cons.mp hz with rfl | hz
          · exact hlt.le.trans (htop x List.mem_cons_self)
          · exact htop z (List.mem_cons_of_mem _ hz)
    · obtain ⟨hmem, htop⟩ := ih y
      refine ⟨List.mem_cons_of_mem _ hmem, ?_⟩
      intro z hz
      rcases List.mem_cons.mp hz with rfl | hz
      · exact (not_lt.mp hlt).trans (htop y List.mem_cons_self)
      · exact htop z hz

theorem lastMax_eq_none_iff : lastMax key l = none ↔ l = [] := by
  cases l <;> simp [lastMax]

theorem lastMax_top (h : lastMax key l = some x) : TopEntry key l x := by
  cases l with
  | nil => cases h
  | cons y l =>
    obtain rfl := Option.some.inj h
    exact topEntry_foldl l y

theorem lastMax_concat (h : ∀ y ∈ l, key y ≤ key x) : lastMax key (l ++ [x]) = some x := by
  cases l with
  | nil => rfl
  | cons y l =>
    have htop : TopEntry key (y :: l) _ := topEntry_foldl l y
    have hle := h _ htop.1
    rw [List.cons_append, lastMax, List.foldl_append, List.foldl_cons, List.foldl_nil,
      if_neg (not_lt.mpr hle)]

/-- Any greatest entry is chosen in some order of the list. -/
theorem exists_perm_lastMax_filter (h : TopEntry key (l.filter p) x) :
    ∃ l', l.Perm l' ∧ lastMax key (l'.filter p) = some x := by
  obtain ⟨hmem, hpx⟩ := List.mem_filter.mp h.1
  obtain ⟨before, after, rfl⟩ := List.append_of_mem hmem
  refine ⟨before ++ after ++ [x], ?_, ?_⟩
  · exact List.perm_middle.trans (List.perm_append_singleton x _).symm
  · rw [List.filter_append, List.filter_singleton, hpx]
    apply lastMax_concat
    intro y hy
    apply h.2 y
    rw [List.filter_append, List.mem_append] at hy
    rw [List.filter_append, List.filter_cons_of_pos hpx, List.mem_append, List.mem_cons]
    exact hy.imp_right Or.inr

/-- The choice does not depend on the order exactly when the greatest entries are one. -/
theorem lastMax_filter_perm_iff :
    (∀ l', l.Perm l' → lastMax key (l'.filter p) = lastMax key (l.filter p)) ↔
      ∀ x y, TopEntry key (l.filter p) x → TopEntry key (l.filter p) y → x = y := by
  constructor
  · intro hsame x y hx hy
    obtain ⟨lx, hpermx, hchosenx⟩ := exists_perm_lastMax_filter hx
    obtain ⟨ly, hpermy, hchoseny⟩ := exists_perm_lastMax_filter hy
    rw [hsame lx hpermx] at hchosenx
    rw [hsame ly hpermy] at hchoseny
    exact Option.some.inj (hchosenx.symm.trans hchoseny)
  · intro hone l' hperm
    have hfilter := hperm.filter p
    cases hx : lastMax key (l.filter p) with
    | none =>
      rw [lastMax_eq_none_iff] at hx ⊢
      rw [hx] at hfilter
      exact hfilter.nil_eq.symm
    | some x =>
      have hne : lastMax key (l'.filter p) ≠ none := by
        intro hnone
        rw [lastMax_eq_none_iff] at hnone
        rw [hnone] at hfilter
        rw [hfilter.eq_nil] at hx
        cases hx
      obtain ⟨y, hy⟩ := Option.ne_none_iff_exists'.mp hne
      have htop := (lastMax_top hy).of_perm hfilter.symm
      rw [hy, hone y x htop (lastMax_top hx)]

end CryptoCollector.Foundations

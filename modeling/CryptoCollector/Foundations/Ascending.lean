import Mathlib.Tactic

/-!
# Ascending lists

Lists whose entries have strictly increasing keys: what a prefix of such a list
contains, and how many entries lie below a bound.
-/

namespace CryptoCollector.Foundations

variable {α κ : Type*} [LinearOrder κ] {key : α → κ}

/-- The keys increase along the list. -/
def Ascending (key : α → κ) (l : List α) : Prop := l.Pairwise fun x y => key x < key y

theorem Ascending.mem_take_of_le {l : List α} (h : Ascending key l) {n : ℕ} {x y : α}
    (hx : x ∈ l) (hy : y ∈ l.take n) (hle : key x ≤ key y) : x ∈ l.take n := by
  rw [← List.take_append_drop n l] at h hx
  rcases List.mem_append.mp hx with hprefix | hrest
  · exact hprefix
  · exact absurd hle (not_le.mpr ((List.pairwise_append.mp h).2.2 y hy x hrest))

theorem Ascending.filter {l : List α} (h : Ascending key l) (p : α → Bool) :
    Ascending key (l.filter p) :=
  List.Pairwise.filter p h

theorem Ascending.key_inj {l : List α} (h : Ascending key l) {x y : α} (hx : x ∈ l) (hy : y ∈ l)
    (hkey : key x = key y) : x = y := by
  have hnodup : (l.map key).Nodup := (List.pairwise_map.mpr h).imp ne_of_lt
  exact List.inj_on_of_nodup_map hnodup hx hy hkey

/-- The entries that meet a condition which the earlier ones meet when a later does are
the front of the list. -/
theorem Ascending.filter_prefix {l : List α} (h : Ascending key l) {p : α → Bool}
    (hp : ∀ x ∈ l, ∀ y ∈ l, key x < key y → p y = true → p x = true) : l.filter p <+: l := by
  induction l with
  | nil => exact List.prefix_rfl
  | cons x l ih =>
    obtain ⟨hfirst, hrest⟩ := List.pairwise_cons.mp h
    by_cases hx : p x = true
    · rw [List.filter_cons_of_pos hx, List.prefix_cons_inj]
      exact ih hrest fun y hy z hz =>
        hp y (List.mem_cons_of_mem _ hy) z (List.mem_cons_of_mem _ hz)
    · have hnone : (x :: l).filter p = [] := by
        rw [List.filter_eq_nil_iff]
        intro y hy hpy
        rcases List.mem_cons.mp hy with rfl | hmem
        · exact hx hpy
        · exact hx (hp x List.mem_cons_self y hy (hfirst y hmem) hpy)
      rw [hnone]
      exact List.nil_prefix

theorem Ascending.of_map_eq {β : Type*} {key' : β → κ} {l : List α} {l' : List β}
    (h : Ascending key l) (hmap : l'.map key' = l.map key) : Ascending key' l' := by
  apply List.pairwise_map.mp
  rw [hmap]
  exact List.pairwise_map.mpr h

theorem Ascending.nodup {l : List α} (h : Ascending key l) : l.Nodup := by
  apply h.imp
  rintro x _ hlt rfl
  exact lt_irrefl _ hlt

theorem Ascending.le_getLast {l : List α} (h : Ascending key l) {x y : α} (hx : x ∈ l)
    (hlast : l.getLast? = some y) : key x ≤ key y := by
  obtain ⟨front, rfl⟩ := List.getLast?_eq_some_iff.mp hlast
  rcases List.mem_append.mp hx with hfront | hend
  · exact ((List.pairwise_append.mp h).2.2 x hfront y (List.mem_singleton.mpr rfl)).le
  · rw [List.mem_singleton.mp hend]

/-- The first entry is the least, and the last the greatest. -/
theorem Ascending.head?_eq_some_iff {l : List α} (h : Ascending key l) {x : α} :
    l.head? = some x ↔ x ∈ l ∧ ∀ y ∈ l, key x ≤ key y := by
  constructor
  · intro hhead
    obtain ⟨rest, rfl⟩ := List.head?_eq_some_iff.mp hhead
    refine ⟨List.mem_cons_self, ?_⟩
    intro y hy
    rcases List.mem_cons.mp hy with rfl | hrest
    · exact le_rfl
    · exact ((List.pairwise_cons.mp h).1 y hrest).le
  · rintro ⟨hx, hleast⟩
    cases l with
    | nil => cases hx
    | cons z rest =>
      rcases List.mem_cons.mp hx with rfl | hrest
      · rfl
      · have hlt := (List.pairwise_cons.mp h).1 x hrest
        exact absurd hlt (not_lt.mpr (hleast z List.mem_cons_self))

theorem Ascending.getLast?_eq_some_iff {l : List α} (h : Ascending key l) {x : α} :
    l.getLast? = some x ↔ x ∈ l ∧ ∀ y ∈ l, key y ≤ key x := by
  constructor
  · intro hlast
    exact ⟨List.mem_of_getLast? hlast, fun y hy => h.le_getLast hy hlast⟩
  · rintro ⟨hx, hgreatest⟩
    have hne : l ≠ [] := List.ne_nil_of_mem hx
    have hlast := List.getLast?_eq_some_getLast hne
    have hle := h.le_getLast hx hlast
    have hge := hgreatest _ (List.getLast_mem hne)
    rw [hlast, h.key_inj (List.getLast_mem hne) hx (le_antisymm hge hle)]

theorem Ascending.ext {l l' : List α} (h : Ascending key l) (h' : Ascending key l')
    (hmem : ∀ x, x ∈ l ↔ x ∈ l') : l = l' := by
  have hperm : l.Perm l' := (List.perm_ext_iff_of_nodup h.nodup h'.nodup).mpr hmem
  apply hperm.eq_of_pairwise _ h h'
  intro x y _ _ hxy hyx
  exact absurd hxy (lt_asymm hyx)

/-- The stable sort by a key. -/
def sortBy (key : α → κ) (l : List α) : List α := l.insertionSort fun x y => key x ≤ key y

@[simp] theorem mem_sortBy (key : α → κ) {l : List α} {x : α} : x ∈ sortBy key l ↔ x ∈ l :=
  (List.perm_insertionSort _ l).mem_iff

@[simp] theorem length_sortBy (key : α → κ) (l : List α) : (sortBy key l).length = l.length :=
  (List.perm_insertionSort _ l).length_eq

theorem sortBy_ascending (key : α → κ) {l : List α} (hkeys : (l.map key).Nodup) :
    Ascending key (sortBy key l) := by
  have hle : (sortBy key l).Pairwise fun x y => key x ≤ key y :=
    List.pairwise_insertionSort (fun x y => key x ≤ key y) l
  have hne : (sortBy key l).Pairwise fun x y => key x ≠ key y := by
    have hperm : ((sortBy key l).map key).Perm (l.map key) :=
      (List.perm_insertionSort _ l).map key
    exact List.pairwise_map.mp (hperm.nodup_iff.mpr hkeys)
  exact hle.imp₂ (fun _ _ hxy hxne => lt_of_le_of_ne hxy hxne) hne

/-- The first of the least entries, `less` being the strict order. -/
def firstMin (less : α → α → Bool) : List α → Option α
  | [] => none
  | x :: l =>
    match firstMin less l with
    | none => some x
    | some y => if less y x then some y else some x

theorem firstMin_mem {less : α → α → Bool} {l : List α} {x : α} (h : firstMin less l = some x) :
    x ∈ l := by
  induction l generalizing x with
  | nil => cases h
  | cons y l ih =>
    unfold firstMin at h
    split at h
    · cases h
      exact List.mem_cons_self
    · next z hz =>
      split_ifs at h <;> cases h
      · exact List.mem_cons_of_mem _ (ih hz)
      · exact List.mem_cons_self

theorem firstMin_eq_none_iff {less : α → α → Bool} {l : List α} :
    firstMin less l = none ↔ l = [] := by
  cases l with
  | nil => simp [firstMin]
  | cons x l =>
    unfold firstMin
    split
    · simp
    · split_ifs <;> simp

theorem firstMin_le {less : α → α → Bool} (hless : ∀ x y, less x y = true ↔ key x < key y)
    {l : List α} {x y : α} (h : firstMin less l = some x) (hy : y ∈ l) : key x ≤ key y := by
  induction l generalizing x with
  | nil => cases hy
  | cons z l ih =>
    unfold firstMin at h
    split at h
    · next hnone =>
      cases h
      rw [firstMin_eq_none_iff.mp hnone, List.mem_singleton] at hy
      rw [hy]
    · next w hw =>
      split_ifs at h with hlower <;> cases h
      · rw [hless] at hlower
        rcases List.mem_cons.mp hy with rfl | hy
        · exact hlower.le
        · exact ih hw hy
      · rw [hless, not_lt] at hlower
        rcases List.mem_cons.mp hy with rfl | hy
        · exact le_rfl
        · exact hlower.trans (ih hw hy)

theorem exists_least (key : α → κ) {l : List α} {c : κ} (h : ∃ x ∈ l, c ≤ key x) :
    ∃ t ∈ l, c ≤ key t ∧ ∀ y ∈ l, c ≤ key y → key t ≤ key y := by
  obtain ⟨x, hx, hcx⟩ := h
  have hne : (l.filter fun y => c ≤ key y) ≠ [] :=
    List.ne_nil_of_mem (List.mem_filter.mpr ⟨hx, by simpa using hcx⟩)
  have hsome : (l.filter fun y => c ≤ key y).argmin key ≠ none :=
    fun hnone => hne (List.argmin_eq_none.mp hnone)
  obtain ⟨t, ht⟩ := Option.ne_none_iff_exists'.mp hsome
  have hmem := List.mem_filter.mp (List.argmin_mem ht)
  refine ⟨t, hmem.1, by simpa using hmem.2, ?_⟩
  intro y hy hcy
  exact List.le_of_mem_argmin (List.mem_filter.mpr ⟨hy, by simpa using hcy⟩) ht

/-- How many entries have a key of at most `c`. -/
def countUpTo (key : α → κ) (l : List α) (c : κ) : ℕ := l.countP fun x => key x ≤ c

theorem countUpTo_le_length (key : α → κ) (l : List α) (c : κ) : countUpTo key l c ≤ l.length :=
  List.countP_le_length

theorem countUpTo_mono (key : α → κ) (l : List α) {c d : κ} (h : c ≤ d) :
    countUpTo key l c ≤ countUpTo key l d := by
  refine List.countP_mono_left ?_
  intro x _ hx
  simp only [decide_eq_true_eq] at hx ⊢
  exact hx.trans h

theorem countUpTo_lt (key : α → κ) {l : List α} {x : α} {c : κ} (hx : x ∈ l) (hlt : c < key x) :
    countUpTo key l c < countUpTo key l (key x) := by
  induction l with
  | nil => cases hx
  | cons y l ih =>
    have hmono : countUpTo key l c ≤ countUpTo key l (key x) := countUpTo_mono key l hlt.le
    unfold countUpTo at ih hmono ⊢
    rcases List.mem_cons.mp hx with rfl | hx
    · simp only [List.countP_cons, le_refl, decide_true, if_true, not_le.mpr hlt, decide_false]
      simp only [Bool.false_eq_true, if_false]
      omega
    · have hrest := ih hx
      simp only [List.countP_cons]
      by_cases hy : key y ≤ c
      · simp only [hy, hy.trans hlt.le, decide_true, if_true]
        omega
      · simp only [hy, decide_false, Bool.false_eq_true, if_false]
        omega

theorem Ascending.map {β μ : Type*} [LinearOrder μ] {key' : β → μ} {f : α → β} {l : List α}
    (h : Ascending key l) (hmono : ∀ x y, key x < key y → key' (f x) < key' (f y)) :
    Ascending key' (l.map f) :=
  List.pairwise_map.mpr (h.imp fun hlt => hmono _ _ hlt)

theorem Ascending.mem_take_iff {l : List α} (h : Ascending key l) {x : α} (hx : x ∈ l) (n : ℕ) :
    x ∈ l.take n ↔ (l.countP fun y => key y < key x) < n := by
  induction l generalizing n with
  | nil => cases hx
  | cons y l ih =>
    obtain ⟨hfirst, hrest⟩ := List.pairwise_cons.mp h
    cases n with
    | zero => simp
    | succ n =>
      rcases List.mem_cons.mp hx with rfl | hmem
      · have hnone : (l.countP fun z => key z < key x) = 0 := by
          rw [List.countP_eq_zero]
          intro z hz
          simpa using (hfirst z hz).le
        simp [hnone]
      · have hlt := hfirst x hmem
        have hne : x ≠ y := fun heq => absurd hlt (heq ▸ lt_irrefl _)
        simp [hlt, hne, ih hrest hmem n]

theorem Ascending.mem_drop_iff {l : List α} (h : Ascending key l) {x : α} (hx : x ∈ l) (n : ℕ) :
    x ∈ l.drop (l.length - n) ↔ (l.countP fun y => key x < key y) < n := by
  induction l with
  | nil => cases hx
  | cons y l ih =>
    obtain ⟨hfirst, hrest⟩ := List.pairwise_cons.mp h
    have hskip : (y :: l).countP (fun z => key x < key z) = l.countP fun z => key x < key z := by
      have hnot : ¬key x < key y := by
        rcases List.mem_cons.mp hx with rfl | hmem
        · exact lt_irrefl _
        · exact not_lt.mpr (hfirst x hmem).le
      simp [hnot]
    rw [hskip]
    by_cases hn : l.length + 1 ≤ n
    · have hcount : (l.countP fun z => key x < key z) ≤ l.length := List.countP_le_length
      have hzero : (y :: l).length - n = 0 := by
        simp only [List.length_cons]
        omega
      simp only [hzero, List.drop_zero, hx, true_iff]
      omega
    · have hlength : (y :: l).length - n = (l.length - n) + 1 := by
        simp only [List.length_cons]
        omega
      rw [hlength, List.drop_succ_cons]
      rcases List.mem_cons.mp hx with rfl | hmem
      · have hall : (l.countP fun z => key x < key z) = l.length := by
          rw [List.countP_eq_length]
          intro z hz
          simpa using hfirst z hz
        rw [hall]
        constructor
        · intro hdrop
          exact absurd (hfirst x (List.mem_of_mem_drop hdrop)) (lt_irrefl _)
        · intro hlt
          omega
      · exact ih hrest hmem

theorem Ascending.countP_le_one {l : List α} (h : Ascending key l) {p : α → Bool} {c : κ}
    (hp : ∀ x ∈ l, p x = true → key x = c) : l.countP p ≤ 1 := by
  induction l with
  | nil => simp
  | cons y l ih =>
    obtain ⟨hfirst, hrest⟩ := List.pairwise_cons.mp h
    have htail := ih hrest fun x hx => hp x (List.mem_cons_of_mem _ hx)
    by_cases hy : p y = true
    · have hnone : l.countP p = 0 := by
        rw [List.countP_eq_zero]
        intro x hx hpx
        have hlt := hfirst x hx
        rw [hp y List.mem_cons_self hy, hp x (List.mem_cons_of_mem _ hx) hpx] at hlt
        exact lt_irrefl _ hlt
      simp [hnone, hy]
    · simpa [List.countP_cons, hy] using htail

/-- Entries on a grid of width `g` take up `g` each. -/
theorem Ascending.length_mul_le {β : Type*} {time : β → ℤ} {l : List β} (h : Ascending time l)
    {g lo hi : ℤ} (hlo : g ∣ lo) (hle : lo ≤ hi)
    (hmem : ∀ x ∈ l, g ∣ time x ∧ lo < time x ∧ time x ≤ hi) : l.length * g ≤ hi - lo := by
  induction l generalizing lo with
  | nil =>
    simp only [List.length_nil, Nat.cast_zero, zero_mul]
    omega
  | cons y l ih =>
    obtain ⟨hfirst, hrest⟩ := List.pairwise_cons.mp h
    obtain ⟨hgrid, hlow, hhigh⟩ := hmem y List.mem_cons_self
    have hstep : g ≤ time y - lo := Int.le_of_dvd (by omega) (dvd_sub hgrid hlo)
    have htail := ih hrest hgrid hhigh fun x hx =>
      ⟨(hmem x (List.mem_cons_of_mem _ hx)).1, hfirst x hx,
        (hmem x (List.mem_cons_of_mem _ hx)).2.2⟩
    have hsucc : ((y :: l).length : ℤ) * g = l.length * g + g := by
      push_cast [List.length_cons]
      ring
    omega

/-- A list within a list of slots is as long only when no slot is missing. -/
theorem slots_length_le_iff {slots l : List α} (hslots : slots.Nodup) (hl : l.Nodup)
    (hsub : l ⊆ slots) : slots.length ≤ l.length ↔ slots ⊆ l := by
  constructor
  · intro hlength
    have hperm : l.Perm slots := (List.subperm_of_subset hl hsub).perm_of_length_le hlength
    exact hperm.symm.subset
  · intro hfilled
    exact (List.subperm_of_subset hslots hfilled).length_le

end CryptoCollector.Foundations

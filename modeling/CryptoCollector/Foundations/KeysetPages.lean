import Mathlib.Tactic

/-!
# Keyset pages

A source that serves a descending sequence page by page: a page lists entries
beyond a cursor and says where the next one resumes. Following the pages always
ends; what it misses is what some page neither lists nor leaves to the next.
-/

namespace CryptoCollector.Foundations

variable {α κ : Type*} [LinearOrder κ] {key : α → κ}

/-- The key comes after the cursor; everything comes after no cursor. -/
def Beyond (cursor : Option κ) (k : κ) : Prop := ∀ c ∈ cursor, k < c

@[simp] theorem beyond_none (k : κ) : Beyond none k := by simp [Beyond]

@[simp] theorem beyond_some {c k : κ} : Beyond (some c) k ↔ k < c := by simp [Beyond]

theorem Beyond.of_le {cursor : Option κ} {k k' : κ} (h : Beyond cursor k) (hle : k' ≤ k) :
    Beyond cursor k' :=
  fun c hc => hle.trans_lt (h c hc)

/-- Pages of entries in descending key order. The keys a page can resume at are
finitely many. -/
structure KeysetPages (key : α → κ) where
  items : Option κ → List α
  next : Option κ → Option κ
  anchors : List κ
  items_beyond : ∀ c, ∀ x ∈ items c, Beyond c (key x)
  items_descending : ∀ c, (items c).Pairwise fun x y => key y < key x
  next_beyond : ∀ c k, next c = some k → Beyond c k
  next_le : ∀ c k, next c = some k → ∀ x ∈ items c, k ≤ key x
  next_mem : ∀ c k, next c = some k → k ∈ anchors

namespace KeysetPages

variable {p : KeysetPages key}

/-- The cursors of the pages served from a cursor on, to the page with no next. -/
inductive Served (p : KeysetPages key) : Option κ → List (Option κ) → Prop
  | last {c : Option κ} : p.next c = none → Served p c [c]
  | more {c : Option κ} {k : κ} {cursors : List (Option κ)} :
      p.next c = some k → Served p (some k) cursors → Served p c (c :: cursors)

theorem Served.unique {c : Option κ} {cursors cursors' : List (Option κ)}
    (h : p.Served c cursors) (h' : p.Served c cursors') : cursors = cursors' := by
  induction h generalizing cursors' with
  | last hnone =>
    cases h' with
    | last => rfl
    | more hsome => simp [hnone] at hsome
  | more hsome _ ih =>
    cases h' with
    | last hnone => simp [hnone] at hsome
    | more hsome' hrest =>
      obtain rfl : _ = _ := Option.some.inj (hsome.symm.trans hsome')
      rw [ih hrest]

/-- Following the pages ends: each resumes at an earlier anchor. -/
theorem exists_served (p : KeysetPages key) (c : Option κ) : ∃ cursors, p.Served c cursors := by
  classical
  induction hcount : (p.anchors.toFinset.filter fun k => Beyond c k).card using
    Nat.strong_induction_on generalizing c with
  | _ count ih =>
    cases hnext : p.next c with
    | none => exact ⟨[c], Served.last hnext⟩
    | some k =>
      have hbeyond := p.next_beyond c k hnext
      have hsmaller : (p.anchors.toFinset.filter fun k' => Beyond (some k) k').card < count := by
        rw [← hcount]
        apply Finset.card_lt_card
        apply Finset.ssubset_iff_subset_ne.mpr
        constructor
        · intro k' hk'
          rw [Finset.mem_filter, beyond_some] at hk'
          exact Finset.mem_filter.mpr ⟨hk'.1, hbeyond.of_le hk'.2.le⟩
        · intro heq
          have hmem : k ∈ p.anchors.toFinset.filter fun k => Beyond c k :=
            Finset.mem_filter.mpr ⟨List.mem_toFinset.mpr (p.next_mem c k hnext), hbeyond⟩
          rw [← heq, Finset.mem_filter, beyond_some] at hmem
          exact lt_irrefl _ hmem.2
      obtain ⟨cursors, hserved⟩ := ih _ hsmaller (some k) rfl
      exact ⟨c :: cursors, Served.more hnext hserved⟩

theorem Served.items_beyond {c : Option κ} {cursors : List (Option κ)} (h : p.Served c cursors) :
    ∀ x ∈ cursors.flatMap p.items, Beyond c (key x) := by
  induction h with
  | last =>
    intro x hx
    rw [List.flatMap_cons, List.flatMap_nil, List.append_nil] at hx
    exact p.items_beyond _ x hx
  | more hnext _ ih =>
    intro x hx
    rw [List.flatMap_cons] at hx
    rcases List.mem_append.mp hx with hx | hx
    · exact p.items_beyond _ x hx
    · exact (p.next_beyond _ _ hnext).of_le (beyond_some.mp (ih x hx)).le

theorem Served.items_descending {c : Option κ} {cursors : List (Option κ)}
    (h : p.Served c cursors) :
    (cursors.flatMap p.items).Pairwise fun x y => key y < key x := by
  induction h with
  | last =>
    rw [List.flatMap_cons, List.flatMap_nil, List.append_nil]
    exact p.items_descending _
  | more hnext hrest ih =>
    rw [List.flatMap_cons]
    apply List.pairwise_append.mpr ⟨p.items_descending _, ih, _⟩
    intro x hx y hy
    have hy := beyond_some.mp (hrest.items_beyond y hy)
    exact hy.trans_le (p.next_le _ _ hnext x hx)

theorem Served.next_beyond {c : Option κ} {cursors : List (Option κ)} (h : p.Served c cursors) :
    ∀ k ∈ cursors.filterMap p.next, Beyond c k := by
  induction h with
  | last hnone => simp [hnone]
  | more hnext _ ih =>
    intro k hk
    simp only [List.filterMap_cons, hnext] at hk
    rcases List.mem_cons.mp hk with rfl | hk
    · exact p.next_beyond _ _ hnext
    · exact (p.next_beyond _ _ hnext).of_le (beyond_some.mp (ih k hk)).le

theorem Served.next_descending {c : Option κ} {cursors : List (Option κ)}
    (h : p.Served c cursors) : (cursors.filterMap p.next).Pairwise fun k k' => k' < k := by
  induction h with
  | last hnone => simp [hnone]
  | more hnext hrest ih =>
    simp only [List.filterMap_cons, hnext]
    apply List.pairwise_cons.mpr ⟨_, ih⟩
    intro k hk
    exact beyond_some.mp (hrest.next_beyond k hk)

/-- The page lists each entry beyond its cursor or leaves it to the next page. -/
def Keeps (p : KeysetPages key) (full : List α) (c : Option κ) : Prop :=
  ∀ x ∈ full, Beyond c (key x) → x ∈ p.items c ∨ ∃ k, p.next c = some k ∧ key x < k

/-- Nothing is missed exactly when no page drops an entry. -/
theorem Served.complete_iff {c : Option κ} {cursors : List (Option κ)} (h : p.Served c cursors)
    (full : List α) :
    (∀ x ∈ full, Beyond c (key x) → x ∈ cursors.flatMap p.items) ↔
      ∀ c' ∈ cursors, p.Keeps full c' := by
  induction h with
  | @last c hnone =>
    simp only [List.flatMap_cons, List.flatMap_nil, List.append_nil, List.mem_singleton,
      forall_eq, Keeps, hnone]
    simp
  | @more c k cursors hnext hrest ih =>
    rw [List.forall_mem_cons, ← ih, List.flatMap_cons]
    constructor
    · intro hall
      constructor
      · intro x hx hbeyond
        rcases List.mem_append.mp (hall x hx hbeyond) with hitem | hlater
        · exact Or.inl hitem
        · exact Or.inr ⟨k, hnext, beyond_some.mp (hrest.items_beyond x hlater)⟩
      · intro x hx hbeyond
        have hbefore : Beyond c (key x) :=
          (p.next_beyond c k hnext).of_le (beyond_some.mp hbeyond).le
        rcases List.mem_append.mp (hall x hx hbefore) with hitem | hlater
        · exact absurd (beyond_some.mp hbeyond) (not_lt.mpr (p.next_le c k hnext x hitem))
        · exact hlater
    · rintro ⟨hkeeps, hlater⟩ x hx hbeyond
      rcases hkeeps x hx hbeyond with hitem | ⟨k', hk', hlt⟩
      · exact List.mem_append_left _ hitem
      · obtain rfl : k = k' := Option.some.inj (hnext.symm.trans hk')
        exact List.mem_append_right _ (hlater x hx (beyond_some.mpr hlt))

/-- The cursors that following the pages from the first one meets. -/
inductive Visited (p : KeysetPages key) : Option κ → Prop
  | first : Visited p none
  | resume {c : Option κ} {k : κ} : Visited p c → p.next c = some k → Visited p (some k)

theorem Served.visited {c : Option κ} {cursors : List (Option κ)} (h : p.Served c cursors)
    (hc : p.Visited c) : ∀ c' ∈ cursors, p.Visited c' := by
  induction h with
  | last =>
    intro c' hc'
    rw [List.mem_singleton.mp hc']
    exact hc
  | more hnext _ ih =>
    intro c' hc'
    rcases List.mem_cons.mp hc' with rfl | hc'
    · exact hc
    · exact ih (Visited.resume hc hnext) c' hc'

theorem Served.head_mem {c : Option κ} {cursors : List (Option κ)} (h : p.Served c cursors) :
    c ∈ cursors := by
  cases h with
  | last => exact List.mem_cons_self
  | more => exact List.mem_cons_self

theorem Served.resume_mem {c c' : Option κ} {k : κ} {cursors : List (Option κ)}
    (h : p.Served c cursors) (hc' : c' ∈ cursors) (hnext : p.next c' = some k) :
    some k ∈ cursors := by
  induction h with
  | last hnone =>
    rw [List.mem_singleton.mp hc', hnone] at hnext
    cases hnext
  | more hsome hrest ih =>
    apply List.mem_cons_of_mem
    rcases List.mem_cons.mp hc' with rfl | hc'
    · obtain rfl : _ = k := Option.some.inj (hsome.symm.trans hnext)
      exact hrest.head_mem
    · exact ih hc'

theorem Served.mem_iff_visited {cursors : List (Option κ)} (h : p.Served none cursors)
    (c : Option κ) : c ∈ cursors ↔ p.Visited c := by
  constructor
  · exact h.visited Visited.first c
  · intro hc
    induction hc with
    | first => exact h.head_mem
    | resume _ hnext ih => exact h.resume_mem ih hnext

end KeysetPages
end CryptoCollector.Foundations

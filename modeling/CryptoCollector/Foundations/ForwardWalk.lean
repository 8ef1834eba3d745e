import CryptoCollector.Foundations.Ascending

/-!
# Forward walks over pages

A walk reads a keyed collection page by page. A page with entries moves the walk
just past the last of them; an empty page moves it on by a stride that the
collection has no say in. The walk collects every entry exactly when the strides
taken from the entry before each one come by a page that has it.
-/

namespace CryptoCollector.Foundations

/-- A walk from `start` to `stop`. A page holds entries at or after its start and
leaves out none between its start and its last entry; an entry on the page is
also on the page that starts just past an earlier entry. -/
structure ForwardWalk (α : Type*) where
  key : α → ℤ
  items : List α
  page : ℤ → List α
  skip : ℤ → ℤ
  finished : ℤ → Bool
  start : ℤ
  stop : ℤ
  key_inj : ∀ x ∈ items, ∀ y ∈ items, key x = key y → x = y
  page_sub : ∀ s, ∀ x ∈ page s, x ∈ items ∧ s ≤ key x ∧ key x < stop
  page_closed : ∀ s, ∀ x ∈ page s, ∀ y ∈ items, s < key y → key y < key x → y ∈ page s
  page_later : ∀ s, ∀ x ∈ page s, ∀ y ∈ items, s ≤ key y → key y < key x → x ∈ page (key y + 1)
  le_skip : ∀ s, finished s = false → s ≤ skip s
  finished_of_le : ∀ s, stop ≤ s → finished s = true

namespace ForwardWalk

variable {α : Type*} (w : ForwardWalk α)

/-- Past an empty page, unless the walk ends there. -/
def stride (s : ℤ) : ℤ := if w.finished s then s else w.skip s + 1

/-- Past a page. -/
def advance (s : ℤ) : ℤ :=
  match ((w.page s).map w.key).max? with
  | some m => m + 1
  | none => w.stride s

/-- Just past the entry before `x`, or the start. -/
def resumePoint (x : α) : ℤ :=
  ((w.items.filter fun y => w.start ≤ w.key y ∧ w.key y < w.key x).map w.key).max?.elim
    w.start (· + 1)

/-- The entries the walk is about. -/
def InRange (x : α) : Prop := x ∈ w.items ∧ w.start ≤ w.key x ∧ w.key x < w.stop

/-- The walk comes by a page that has `x`. -/
def Collected (x : α) : Prop := ∃ n, x ∈ w.page (w.advance^[n] w.start)

/-- Strides from the entry before `x` come by a page that has it. -/
def Reached (x : α) : Prop := ∃ k, x ∈ w.page (w.stride^[k] (w.resumePoint x))

theorem le_stride (s : ℤ) : s ≤ w.stride s := by
  unfold stride
  split_ifs with hfinished
  · exact le_rfl
  · have hskip := w.le_skip s (by simpa using hfinished)
    omega

theorem le_stride_iterate (s : ℤ) (k : ℕ) : s ≤ w.stride^[k] s := by
  induction k with
  | zero => exact le_rfl
  | succ k ih =>
    rw [Function.iterate_succ_apply']
    exact ih.trans (w.le_stride _)

variable {w}

theorem advance_of_empty {s : ℤ} (h : w.page s = []) : w.advance s = w.stride s := by
  simp [advance, h]

theorem exists_last {s : ℤ} (h : w.page s ≠ []) :
    ∃ z ∈ w.page s, (∀ x ∈ w.page s, w.key x ≤ w.key z) ∧ w.advance s = w.key z + 1 := by
  cases hmax : ((w.page s).map w.key).max? with
  | none => exact absurd (by simpa using hmax) h
  | some m =>
    obtain ⟨hmem, hle⟩ := List.max?_eq_some_iff.mp hmax
    obtain ⟨z, hz, rfl⟩ := List.mem_map.mp hmem
    exact ⟨z, hz, fun x hx => hle _ (List.mem_map_of_mem hx), by simp [advance, hmax]⟩

theorem le_advance (s : ℤ) : s ≤ w.advance s := by
  by_cases hempty : w.page s = []
  · rw [advance_of_empty hempty]
    exact w.le_stride s
  · obtain ⟨z, hz, -, hadvance⟩ := exists_last hempty
    have hkey := (w.page_sub s z hz).2.1
    omega

theorem advance_iterate_mono {i j : ℕ} (h : i ≤ j) :
    w.advance^[i] w.start ≤ w.advance^[j] w.start := by
  induction h with
  | refl => exact le_rfl
  | step _ ih =>
    rw [Function.iterate_succ_apply']
    exact ih.trans (le_advance _)

theorem exists_finished (w : ForwardWalk α) :
    ∃ n, w.page (w.advance^[n] w.start) = [] ∧ w.finished (w.advance^[n] w.start) = true := by
  by_contra hnever
  push Not at hnever
  have hmoves : ∀ n : ℕ, w.start + n ≤ w.advance^[n] w.start := by
    intro n
    induction n with
    | zero => simp
    | succ n ih =>
      rw [Function.iterate_succ_apply']
      set s := w.advance^[n] w.start with hs
      have hlt : s < w.advance s := by
        by_cases hempty : w.page s = []
        · have hunfinished : w.finished s = false := by simpa using hnever n hempty
          have hskip := w.le_skip s hunfinished
          rw [advance_of_empty hempty, stride, hunfinished]
          simp only [Bool.false_eq_true, if_false]
          omega
        · obtain ⟨z, hz, -, hadvance⟩ := exists_last hempty
          have hkey := (w.page_sub s z hz).2.1
          omega
      push_cast
      omega
  have hfar := hmoves (w.stop - w.start).toNat
  have hstop : w.stop ≤ w.advance^[(w.stop - w.start).toNat] w.start := by omega
  have hempty : w.page (w.advance^[(w.stop - w.start).toNat] w.start) = [] := by
    rw [List.eq_nil_iff_forall_not_mem]
    intro x hx
    obtain ⟨-, hlow, hhigh⟩ := w.page_sub _ x hx
    omega
  exact hnever _ hempty (w.finished_of_le _ hstop)

/-- Strides may start from the beginning, or just past an entry. -/
def Origin (w : ForwardWalk α) (base : ℤ) : Prop :=
  base = w.start ∨ ∃ u ∈ w.items, w.start ≤ w.key u ∧ base = w.key u + 1

theorem Origin.start_le {base : ℤ} (h : w.Origin base) : w.start ≤ base := by
  rcases h with rfl | ⟨u, -, hu, rfl⟩
  · exact le_rfl
  · omega

theorem Origin.resumePoint_eq {base : ℤ} (h : w.Origin base) {x : α} (hx : base ≤ w.key x)
    (hclear : ∀ y ∈ w.items, base ≤ w.key y → w.key x ≤ w.key y) : w.resumePoint x = base := by
  have hbefore : ∀ y ∈ w.items, w.key y < w.key x → w.key y < base := by
    intro y hy hlt
    by_contra hle
    exact absurd (hclear y hy (not_lt.mp hle)) (not_le.mpr hlt)
  unfold resumePoint
  rcases h with rfl | ⟨u, hu, hstart, rfl⟩
  · have hnone : (w.items.filter fun y => w.start ≤ w.key y ∧ w.key y < w.key x) = [] := by
      rw [List.filter_eq_nil_iff]
      intro y hy hrange
      simp only [decide_eq_true_eq] at hrange
      exact absurd hrange.1 (not_le.mpr (hbefore y hy hrange.2))
    rw [hnone]
    rfl
  · have hmax : ((w.items.filter fun y => w.start ≤ w.key y ∧ w.key y < w.key x).map
        w.key).max? = some (w.key u) := by
      rw [List.max?_eq_some_iff]
      constructor
      · apply List.mem_map_of_mem
        simp only [List.mem_filter, decide_eq_true_eq]
        exact ⟨hu, hstart, by omega⟩
      · intro k hk
        obtain ⟨y, hy, rfl⟩ := List.mem_map.mp hk
        simp only [List.mem_filter, decide_eq_true_eq] at hy
        have hlt := hbefore y hy.1 hy.2.2
        omega
    rw [hmax]
    rfl

theorem resumePoint_cases (w : ForwardWalk α) (t : α) :
    (w.resumePoint t = w.start ∧ ∀ y ∈ w.items, w.start ≤ w.key y → w.key t ≤ w.key y) ∨
      ∃ u ∈ w.items, w.start ≤ w.key u ∧ w.key u < w.key t ∧ w.resumePoint t = w.key u + 1 ∧
        ∀ y ∈ w.items, w.start ≤ w.key y → w.key y < w.key t → w.key y ≤ w.key u := by
  have hmem : ∀ y, w.key y ∈ (w.items.filter fun x => w.start ≤ w.key x ∧ w.key x < w.key t).map
      w.key ↔ ∃ x ∈ w.items, (w.start ≤ w.key x ∧ w.key x < w.key t) ∧ w.key x = w.key y := by
    simp [and_assoc]
  unfold resumePoint
  cases hmax : ((w.items.filter fun x => w.start ≤ w.key x ∧ w.key x < w.key t).map w.key).max? with
  | none =>
    refine Or.inl ⟨rfl, ?_⟩
    intro y hy hstart
    by_contra hlt
    have hin := (hmem y).mpr ⟨y, hy, ⟨hstart, not_le.mp hlt⟩, rfl⟩
    rw [List.max?_eq_none_iff.mp hmax] at hin
    cases hin
  | some m =>
    obtain ⟨hm, hle⟩ := List.max?_eq_some_iff.mp hmax
    obtain ⟨u, hu, rfl⟩ := List.mem_map.mp hm
    simp only [List.mem_filter, decide_eq_true_eq] at hu
    refine Or.inr ⟨u, hu.1, hu.2.1, hu.2.2, rfl, ?_⟩
    intro y hy hstart hlt
    exact hle _ ((hmem y).mpr ⟨y, hy, ⟨hstart, hlt⟩, rfl⟩)

theorem resumePoint_le (w : ForwardWalk α) {t : α} (ht : w.start ≤ w.key t) :
    w.resumePoint t ≤ w.key t := by
  rcases w.resumePoint_cases t with ⟨heq, -⟩ | ⟨u, -, -, hlt, heq, -⟩
  · rwa [heq]
  · omega

/-- The walk at `s`: it got there from `base` over empty pages, past no entry. -/
structure At (w : ForwardWalk α) (s base : ℤ) (j : ℕ) : Prop where
  origin : w.Origin base
  strides : w.stride^[j] base = s
  empty : ∀ i < j, w.page (w.stride^[i] base) = []
  clear : ∀ x ∈ w.items, base ≤ w.key x → s ≤ w.key x

theorem At.base_le {s base : ℤ} {j : ℕ} (h : w.At s base j) : base ≤ s :=
  h.strides ▸ w.le_stride_iterate base j

/-- The next entry is on a page some strides on. -/
theorem At.next_reached {s base : ℤ} {j : ℕ} (h : w.At s base j) {t : α} (ht : s ≤ w.key t)
    (hleast : ∀ y ∈ w.items, s ≤ w.key y → w.key t ≤ w.key y) (hreached : w.Reached t) :
    ∃ d, t ∈ w.page (w.stride^[d] s) := by
  obtain ⟨k, hk⟩ := hreached
  rw [h.origin.resumePoint_eq (h.base_le.trans ht) fun y hy hle =>
    hleast y hy (h.clear y hy hle)] at hk
  have hjk : j ≤ k := by
    by_contra hlt
    simp [h.empty k (not_le.mp hlt)] at hk
  refine ⟨k - j, ?_⟩
  rwa [← h.strides, ← Function.iterate_add_apply, Nat.sub_add_cancel hjk]

theorem next_mem {s : ℤ} {t z : α} {d : ℕ} (ht : t ∈ w.page (w.stride^[d] s))
    (hz : z ∈ w.page s) (hle : w.key t ≤ w.key z) (hst : s ≤ w.key t) : t ∈ w.page s := by
  have htItems := (w.page_sub _ t ht).1
  have hzItems := (w.page_sub s z hz).1
  have hlow := (w.page_sub _ t ht).2.1
  rcases hle.lt_or_eq with hlt | heq
  · rcases hst.lt_or_eq with hslt | hseq
    · exact w.page_closed s z hz t htItems hslt hlt
    · have hsame : w.stride^[d] s = s := le_antisymm (hseq ▸ hlow) (w.le_stride_iterate s d)
      rwa [hsame] at ht
  · rwa [w.key_inj t htItems z hzItems heq]

theorem At.skip {s base : ℤ} {j d : ℕ} (h : w.At s base j) (hempty : w.page s = []) {t : α}
    (hleast : ∀ y ∈ w.items, s ≤ w.key y → w.key t ≤ w.key y)
    (hd : t ∈ w.page (w.stride^[d] s)) :
    s < w.stride s ∧ w.stride s ≤ w.key t ∧ w.At (w.stride s) base (j + 1) := by
  have hunfinished : w.finished s = false := by
    by_contra hfinished
    have hfixed : w.stride s = s := by simp [stride, hfinished]
    rw [Function.iterate_fixed hfixed, hempty] at hd
    cases hd
  have hmoved : s < w.stride s := by
    have hskip := w.le_skip s hunfinished
    simp only [stride, hunfinished, Bool.false_eq_true, if_false]
    omega
  have hd0 : d ≠ 0 := by
    rintro rfl
    simp [hempty] at hd
  obtain ⟨d, rfl⟩ := Nat.exists_eq_succ_of_ne_zero hd0
  rw [Function.iterate_succ_apply] at hd
  have hbeyond := (w.le_stride_iterate (w.stride s) d).trans (w.page_sub _ t hd).2.1
  refine ⟨hmoved, hbeyond, h.origin, ?_, ?_, ?_⟩
  · rw [Function.iterate_succ_apply', h.strides]
  · intro i hi
    rcases Nat.lt_succ_iff_lt_or_eq.mp hi with hlt | rfl
    · exact h.empty i hlt
    · rw [h.strides, hempty]
  · intro y hy hle
    exact hbeyond.trans (hleast y hy (h.clear y hy hle))

/-- After a page with entries the walk starts again behind the last of them. -/
theorem At.after {z : α} (hz : z ∈ w.items) (hstart : w.start ≤ w.key z) :
    w.At (w.key z + 1) (w.key z + 1) 0 where
  origin := Or.inr ⟨z, hz, hstart, rfl⟩
  strides := rfl
  empty i hi := absurd hi (Nat.not_lt_zero i)
  clear _ _ hle := hle

theorem mem_page_of_between {s : ℤ} {t x z : α} (ht : t ∈ w.page s) (hz : z ∈ w.page s)
    (hx : x ∈ w.items) (htx : w.key t ≤ w.key x) (hxz : w.key x ≤ w.key z) : x ∈ w.page s := by
  obtain ⟨htItems, hst, -⟩ := w.page_sub s t ht
  have hzItems := (w.page_sub s z hz).1
  rcases htx.lt_or_eq with hlt | heq
  · rcases hxz.lt_or_eq with hxlt | hxeq
    · exact w.page_closed s z hz x hx (lt_of_le_of_lt hst hlt) hxlt
    · rwa [w.key_inj x hx z hzItems hxeq]
  · rwa [w.key_inj x hx t htItems heq.symm]

/-- Every entry from where the walk is has been or will be collected. -/
theorem At.collected (hreached : ∀ x, w.InRange x → w.Reached x) (n : ℕ) {s base : ℤ} {j i : ℕ}
    (hn : (w.stop - s).toNat ≤ n) (hs : w.advance^[i] w.start = s) (h : w.At s base j) {x : α}
    (hx : w.InRange x) (hsx : s ≤ w.key x) : w.Collected x := by
  induction n generalizing s base j i x with
  | zero =>
    have hstop := hx.2.2
    omega
  | succ n ih =>
    obtain ⟨t, htItems, hst, hleast⟩ := exists_least w.key ⟨x, hx.1, hsx⟩
    have htx := hleast x hx.1 hsx
    have hstart := h.origin.start_le.trans h.base_le
    obtain ⟨d, hd⟩ := h.next_reached hst hleast
      (hreached t ⟨htItems, hstart.trans hst, lt_of_le_of_lt htx hx.2.2⟩)
    have hnext : w.advance^[i + 1] w.start = w.advance s := by
      rw [Function.iterate_succ_apply', hs]
    by_cases hempty : w.page s = []
    · rw [advance_of_empty hempty] at hnext
      obtain ⟨hmoved, hbeyond, hskip⟩ := h.skip hempty hleast hd
      exact ih (by omega) hnext hskip hx (hbeyond.trans htx)
    · obtain ⟨z, hz, hlast, hadvance⟩ := exists_last hempty
      obtain ⟨hzItems, hsz, -⟩ := w.page_sub s z hz
      have ht : t ∈ w.page s := next_mem hd hz (hleast z hzItems hsz) hst
      rw [hadvance] at hnext
      by_cases hxz : w.key x ≤ w.key z
      · refine ⟨i, ?_⟩
        rw [hs]
        exact mem_page_of_between ht hz hx.1 htx hxz
      · exact ih (by omega) hnext (At.after hzItems (hstart.trans hsz)) hx (by omega)

/-- How the walk got to where it is: strides from an origin, with every entry it
collected before that origin. -/
theorem exists_trail (w : ForwardWalk α) (n : ℕ) :
    ∃ base j, w.stride^[j] base = w.advance^[n] w.start ∧ w.Origin base ∧
      ∀ i < n, ∀ x ∈ w.page (w.advance^[i] w.start), w.key x < base := by
  induction n with
  | zero => exact ⟨w.start, 0, rfl, Or.inl rfl, by simp⟩
  | succ n ih =>
    obtain ⟨base, j, hstrides, horigin, hbefore⟩ := ih
    set s := w.advance^[n] w.start with hs
    have hbase : base ≤ s := hstrides ▸ w.le_stride_iterate base j
    rw [Function.iterate_succ_apply', ← hs]
    by_cases hempty : w.page s = []
    · refine ⟨base, j + 1, ?_, horigin, ?_⟩
      · rw [Function.iterate_succ_apply', hstrides, advance_of_empty hempty]
      · intro i hi x hx
        rcases Nat.lt_succ_iff_lt_or_eq.mp hi with hlt | rfl
        · exact hbefore i hlt x hx
        · simp [← hs, hempty] at hx
    · obtain ⟨z, hz, hlast, hadvance⟩ := exists_last hempty
      obtain ⟨hzItems, hsz, -⟩ := w.page_sub s z hz
      refine ⟨w.key z + 1, 0, hadvance.symm,
        Or.inr ⟨z, hzItems, (horigin.start_le.trans hbase).trans hsz, rfl⟩, ?_⟩
      intro i hi x hx
      rcases Nat.lt_succ_iff_lt_or_eq.mp hi with hlt | rfl
      · have hlt' := hbefore i hlt x hx
        omega
      · exact Int.lt_add_one_of_le (hlast x hx)

theorem Collected.reached (hall : ∀ x, w.InRange x → w.Collected x) {t : α} (ht : w.InRange t) :
    w.Reached t := by
  obtain ⟨n, hn⟩ := hall t ht
  obtain ⟨base, j, hstrides, horigin, hbefore⟩ := w.exists_trail n
  set s := w.advance^[n] w.start with hs
  have hbase : base ≤ s := hstrides ▸ w.le_stride_iterate base j
  have hst := (w.page_sub s t hn).2.1
  by_cases hclear : ∀ y ∈ w.items, base ≤ w.key y → w.key t ≤ w.key y
  · refine ⟨j, ?_⟩
    rwa [horigin.resumePoint_eq (hbase.trans hst) hclear, hstrides]
  · push Not at hclear
    obtain ⟨y, hy, hbaseY, hyt⟩ := hclear
    have hstartY := horigin.start_le.trans hbaseY
    obtain ⟨-, hfirst⟩ | ⟨u, hu, -, hut, hresume, hlast⟩ := w.resumePoint_cases t
    · exact absurd (hfirst y hy hstartY) (not_le.mpr hyt)
    have hyu := hlast y hy hstartY hyt
    have hstartU := horigin.start_le.trans (hbaseY.trans hyu)
    obtain ⟨i, hi⟩ := hall u ⟨hu, hstartU, hut.trans ht.2.2⟩
    have hni : n ≤ i := by
      by_contra hlt
      have hubase := hbefore i (not_le.mp hlt) u hi
      omega
    have hsu : s ≤ w.key u := (advance_iterate_mono hni).trans (w.page_sub _ u hi).2.1
    refine ⟨0, ?_⟩
    rw [hresume]
    exact w.page_later s t hn u hu hsu hut

/-- The walk collects every entry exactly when each is reached from the one
before it. -/
theorem collected_iff_reached (w : ForwardWalk α) :
    (∀ x, w.InRange x → w.Collected x) ↔ ∀ x, w.InRange x → w.Reached x := by
  constructor
  · exact fun hall x hx => Collected.reached hall hx
  · intro hreached x hx
    have hat : w.At w.start w.start 0 :=
      ⟨Or.inl rfl, rfl, by simp, fun y _ hle => hle⟩
    exact hat.collected hreached _ (i := 0) le_rfl rfl hx hx.2.1

end ForwardWalk

end CryptoCollector.Foundations

import Mathlib.Tactic

/-!
# Partial maps over lists

A map that may fail at an entry, taken over a list, fails when it fails at one
of them. What it returns has one result for each entry, in the order of the
list, so what each result keeps of its entry the list of results keeps.
-/

namespace CryptoCollector.Foundations

variable {α β κ : Type*} {f : α → Option β} {l : List α} {out : List β}

theorem mapM_cons_eq_some {x : α} :
    (x :: l).mapM f = some out ↔
      ∃ y ys, f x = some y ∧ l.mapM f = some ys ∧ out = y :: ys := by
  rw [List.mapM_cons]
  constructor
  · intro h
    obtain ⟨y, hy, hrest⟩ := Option.bind_eq_some_iff.mp h
    obtain ⟨ys, hys, hout⟩ := Option.bind_eq_some_iff.mp hrest
    exact ⟨y, ys, hy, hys, (Option.some.inj hout).symm⟩
  · rintro ⟨y, ys, hy, hys, rfl⟩
    exact Option.bind_eq_some_iff.mpr ⟨y, hy, Option.bind_eq_some_iff.mpr ⟨ys, hys, rfl⟩⟩

theorem exists_entry_of_mapM (h : l.mapM f = some out) {y : β} (hy : y ∈ out) :
    ∃ x ∈ l, f x = some y := by
  induction l generalizing out with
  | nil =>
    obtain rfl : [] = out := Option.some.inj h
    cases hy
  | cons x l ih =>
    obtain ⟨z, zs, hz, hzs, rfl⟩ := mapM_cons_eq_some.mp h
    rcases List.mem_cons.mp hy with rfl | hy
    · exact ⟨x, List.mem_cons_self, hz⟩
    · obtain ⟨x', hx', hfx'⟩ := ih hzs hy
      exact ⟨x', List.mem_cons_of_mem _ hx', hfx'⟩

theorem mapM_eq_none_iff : l.mapM f = none ↔ ∃ x ∈ l, f x = none := by
  induction l with
  | nil => simp
  | cons x l ih =>
    rw [List.mapM_cons, List.exists_mem_cons_iff, ← ih]
    cases hx : f x with
    | none => simp
    | some y =>
      cases hrest : l.mapM f with
      | none => simp
      | some ys => simp

theorem exists_mapM (h : ∀ x ∈ l, ∃ y, f x = some y) : ∃ out, l.mapM f = some out := by
  induction l with
  | nil => exact ⟨[], rfl⟩
  | cons x l ih =>
    obtain ⟨y, hy⟩ := h x List.mem_cons_self
    obtain ⟨ys, hys⟩ := ih fun x' hx' => h x' (List.mem_cons_of_mem _ hx')
    exact ⟨y :: ys, mapM_cons_eq_some.mpr ⟨y, ys, hy, hys, rfl⟩⟩

theorem exists_bind {o : Option α} (hfirst : ∃ x, o = some x)
    (hnext : ∀ x, o = some x → ∃ y, f x = some y) : ∃ y, o.bind f = some y := by
  obtain ⟨x, rfl⟩ := hfirst
  exact hnext x rfl

theorem mapM_eq_some_map {g : α → β} (h : ∀ x ∈ l, f x = some (g x)) :
    l.mapM f = some (l.map g) := by
  induction l with
  | nil => rfl
  | cons x l ih =>
    have hrest := ih fun x' hx' => h x' (List.mem_cons_of_mem _ hx')
    exact mapM_cons_eq_some.mpr ⟨_, _, h x List.mem_cons_self, hrest, rfl⟩

theorem exists_result_of_mapM (h : l.mapM f = some out) {x : α} (hx : x ∈ l) :
    ∃ y ∈ out, f x = some y := by
  induction l generalizing out with
  | nil => cases hx
  | cons x' l ih =>
    obtain ⟨z, zs, hz, hzs, rfl⟩ := mapM_cons_eq_some.mp h
    rcases List.mem_cons.mp hx with rfl | hx
    · exact ⟨z, List.mem_cons_self, hz⟩
    · obtain ⟨y, hy, hfx⟩ := ih hzs hx
      exact ⟨y, List.mem_cons_of_mem _ hy, hfx⟩

theorem mem_flatten_of_mapM {f : α → Option (List β)} {out : List (List β)}
    (h : l.mapM f = some out) {y : β} :
    y ∈ out.flatten ↔ ∃ x ∈ l, ∃ ys, f x = some ys ∧ y ∈ ys := by
  rw [List.mem_flatten]
  constructor
  · rintro ⟨ys, hys, hy⟩
    obtain ⟨x, hx, hfx⟩ := exists_entry_of_mapM h hys
    exact ⟨x, hx, ys, hfx, hy⟩
  · rintro ⟨x, hx, ys, hfx, hy⟩
    obtain ⟨zs, hzs, hfx'⟩ := exists_result_of_mapM h hx
    obtain rfl := Option.some.inj (hfx.symm.trans hfx')
    exact ⟨ys, hzs, hy⟩

theorem map_eq_of_mapM {g : α → κ} {g' : β → κ} (hkeep : ∀ x ∈ l, ∀ y, f x = some y → g' y = g x)
    (h : l.mapM f = some out) : out.map g' = l.map g := by
  induction l generalizing out with
  | nil =>
    obtain rfl : [] = out := Option.some.inj h
    rfl
  | cons x l ih =>
    obtain ⟨y, ys, hy, hys, rfl⟩ := mapM_cons_eq_some.mp h
    rw [List.map_cons, List.map_cons, hkeep x List.mem_cons_self y hy,
      ih (fun x' hx' => hkeep x' (List.mem_cons_of_mem _ hx')) hys]

theorem flatMap_eq_of_mapM {f : α → Option (List β)} {out : List (List β)} {g : α → List κ}
    {g' : β → κ} (hkeep : ∀ x ∈ l, ∀ ys, f x = some ys → ys.map g' = g x)
    (h : l.mapM f = some out) : out.flatten.map g' = l.flatMap g := by
  have hmap : out.map (List.map g') = l.map g := map_eq_of_mapM hkeep h
  rw [List.map_flatten, hmap, List.flatMap_def]

theorem fst_filterMap_sublist (g : α → Option β) (l : List α) :
    ((l.filterMap fun x => (g x).map fun y => (x, y)).map Prod.fst).Sublist l := by
  induction l with
  | nil => exact List.Sublist.slnil
  | cons x l ih =>
    cases hx : g x with
    | none =>
      rw [List.filterMap_cons_none (by simp [hx])]
      exact ih.cons x
    | some y =>
      rw [List.filterMap_cons_some (by simp [hx]; rfl)]
      exact ih.cons_cons x

theorem fst_filterMap_eq {g : α → Option β} {l : List α} (h : ∀ x ∈ l, ∃ y, g x = some y) :
    (l.filterMap fun x => (g x).map fun y => (x, y)).map Prod.fst = l := by
  induction l with
  | nil => rfl
  | cons x l ih =>
    obtain ⟨y, hy⟩ := h x List.mem_cons_self
    rw [List.filterMap_cons_some (by rw [hy]; rfl), List.map_cons,
      ih fun x' hx' => h x' (List.mem_cons_of_mem _ hx')]

end CryptoCollector.Foundations

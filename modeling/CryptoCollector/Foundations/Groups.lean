import CryptoCollector.Foundations.Ascending

/-!
# Ordered grouping

A map from keys to nonempty lists, kept in key order, and the map that collects
the entries of a list under their keys.
-/

namespace CryptoCollector.Foundations

variable {α κ : Type*}

/-- The entries under one key, in the order they came. -/
structure Group (κ α : Type*) where
  key : κ
  first : α
  rest : List α
  deriving DecidableEq, Repr

namespace Group

def items (g : Group κ α) : List α := g.first :: g.rest

def last (g : Group κ α) : α := g.rest.getLastD g.first

def push (g : Group κ α) (x : α) : Group κ α := { g with rest := g.rest ++ [x] }

@[simp] theorem push_key (g : Group κ α) (x : α) : (g.push x).key = g.key := rfl

@[simp] theorem push_items (g : Group κ α) (x : α) : (g.push x).items = g.items ++ [x] := rfl

theorem items_ne_nil (g : Group κ α) : g.items ≠ [] := List.cons_ne_nil _ _

theorem last_mem (g : Group κ α) : g.last ∈ g.items := List.getLastD_mem_cons

theorem ext_items {g g' : Group κ α} (hkey : g.key = g'.key) (hitems : g.items = g'.items) :
    g = g' := by
  obtain ⟨key, first, rest⟩ := g
  obtain ⟨key', first', rest'⟩ := g'
  obtain ⟨hfirst, hrest⟩ := List.cons.inj hitems
  simp only at hkey hfirst hrest
  rw [hkey, hfirst, hrest]

end Group

variable [LinearOrder κ]

/-- Puts `x` last under `k`. -/
def pushGroup (k : κ) (x : α) : List (Group κ α) → List (Group κ α)
  | [] => [⟨k, x, []⟩]
  | g :: groups =>
    if k < g.key then ⟨k, x, []⟩ :: g :: groups
    else if k = g.key then g.push x :: groups
    else g :: pushGroup k x groups

/-- The entries of `l` under their keys. -/
def groupBy (key : α → κ) (l : List α) : List (Group κ α) :=
  l.foldl (fun groups x => pushGroup (key x) x groups) []

def itemsUnder (k : κ) (groups : List (Group κ α)) : List α :=
  (groups.filter fun g => g.key = k).flatMap Group.items

theorem itemsUnder_cons (k : κ) (g : Group κ α) (groups : List (Group κ α)) :
    itemsUnder k (g :: groups) = (if g.key = k then g.items else []) ++ itemsUnder k groups := by
  by_cases hkey : g.key = k <;> simp [itemsUnder, hkey]

theorem itemsUnder_eq_nil {k : κ} {groups : List (Group κ α)} (h : ∀ g ∈ groups, g.key ≠ k) :
    itemsUnder k groups = [] := by
  have hnone : groups.filter (fun g => g.key = k) = [] := by
    rw [List.filter_eq_nil_iff]
    intro g hg
    simpa using h g hg
  rw [itemsUnder, hnone, List.flatMap_nil]

theorem mem_pushGroup_key {k : κ} {x : α} {groups : List (Group κ α)} {g : Group κ α}
    (h : g ∈ pushGroup k x groups) : g.key = k ∨ ∃ g' ∈ groups, g'.key = g.key := by
  induction groups with
  | nil =>
    simp only [pushGroup, List.mem_singleton] at h
    exact Or.inl (by rw [h])
  | cons head groups ih =>
    unfold pushGroup at h
    split_ifs at h with hlt heq
    · rcases List.mem_cons.mp h with rfl | h
      · exact Or.inl rfl
      · exact Or.inr ⟨g, h, rfl⟩
    · rcases List.mem_cons.mp h with rfl | h
      · exact Or.inl heq.symm
      · exact Or.inr ⟨g, List.mem_cons_of_mem _ h, rfl⟩
    · rcases List.mem_cons.mp h with rfl | h
      · exact Or.inr ⟨g, List.mem_cons_self, rfl⟩
      · rcases ih h with hk | ⟨g', hg', hkey⟩
        · exact Or.inl hk
        · exact Or.inr ⟨g', List.mem_cons_of_mem _ hg', hkey⟩

theorem pushGroup_ascending (k : κ) (x : α) {groups : List (Group κ α)}
    (h : Ascending Group.key groups) : Ascending Group.key (pushGroup k x groups) := by
  induction groups with
  | nil => exact List.pairwise_singleton _ _
  | cons g groups ih =>
    obtain ⟨hfirst, hrest⟩ := List.pairwise_cons.mp h
    unfold pushGroup
    split_ifs with hlt heq
    · apply List.pairwise_cons.mpr ⟨_, h⟩
      intro g' hg'
      rcases List.mem_cons.mp hg' with rfl | hg'
      · exact hlt
      · exact hlt.trans (hfirst g' hg')
    · exact List.pairwise_cons.mpr ⟨hfirst, hrest⟩
    · apply List.pairwise_cons.mpr ⟨_, ih hrest⟩
      intro g' hg'
      rcases mem_pushGroup_key hg' with hk | ⟨g'', hg'', hkey⟩
      · rw [hk]
        exact lt_of_le_of_ne (not_lt.mp hlt) fun hgk => heq hgk.symm
      · rw [← hkey]
        exact hfirst g'' hg''

theorem itemsUnder_pushGroup (k : κ) (x : α) {groups : List (Group κ α)}
    (h : Ascending Group.key groups) (k' : κ) :
    itemsUnder k' (pushGroup k x groups) =
      itemsUnder k' groups ++ if k = k' then [x] else [] := by
  induction groups with
  | nil =>
    by_cases hk : k = k' <;> simp [pushGroup, itemsUnder, Group.items, hk]
  | cons g groups ih =>
    obtain ⟨hfirst, hrest⟩ := List.pairwise_cons.mp h
    unfold pushGroup
    split_ifs with hlt hk heq hk hk
    · subst hk
      have hnil : itemsUnder k (g :: groups) = [] := by
        apply itemsUnder_eq_nil
        intro g' hg'
        rcases List.mem_cons.mp hg' with rfl | hg'
        · exact hlt.ne'
        · exact (hlt.trans (hfirst g' hg')).ne'
      rw [itemsUnder_cons, hnil]
      simp [Group.items]
    · rw [itemsUnder_cons]
      simp [hk]
    · subst hk
      have hnil : itemsUnder k groups = [] :=
        itemsUnder_eq_nil fun g' hg' => by rw [heq]; exact (hfirst g' hg').ne'
      rw [itemsUnder_cons, itemsUnder_cons, hnil]
      simp [heq]
    · rw [itemsUnder_cons, itemsUnder_cons]
      have hg : g.key ≠ k' := fun hgk => hk (heq.trans hgk)
      simp [hg]
    · subst hk
      rw [itemsUnder_cons, itemsUnder_cons, ih hrest]
      simp
    · rw [itemsUnder_cons, itemsUnder_cons, ih hrest]
      simp [hk]

theorem foldl_pushGroup (key : α → κ) (l : List α) {groups : List (Group κ α)}
    (h : Ascending Group.key groups) :
    Ascending Group.key (l.foldl (fun groups x => pushGroup (key x) x groups) groups) ∧
      ∀ k, itemsUnder k (l.foldl (fun groups x => pushGroup (key x) x groups) groups) =
        itemsUnder k groups ++ l.filter fun x => key x = k := by
  induction l generalizing groups with
  | nil => exact ⟨h, fun k => by simp⟩
  | cons x l ih =>
    obtain ⟨hasc, hitems⟩ := ih (pushGroup_ascending (key x) x h)
    refine ⟨hasc, fun k => ?_⟩
    rw [List.foldl_cons, hitems k, itemsUnder_pushGroup (key x) x h k, List.append_assoc]
    by_cases hk : key x = k <;> simp [hk]

theorem groupBy_ascending (key : α → κ) (l : List α) : Ascending Group.key (groupBy key l) :=
  (foldl_pushGroup key l List.Pairwise.nil).1

theorem itemsUnder_groupBy (key : α → κ) (l : List α) (k : κ) :
    itemsUnder k (groupBy key l) = l.filter fun x => key x = k := by
  rw [groupBy, (foldl_pushGroup key l List.Pairwise.nil).2 k]
  rfl

theorem Ascending.itemsUnder_key {groups : List (Group κ α)} (h : Ascending Group.key groups)
    {g : Group κ α} (hg : g ∈ groups) : itemsUnder g.key groups = g.items := by
  induction groups with
  | nil => cases hg
  | cons head groups ih =>
    obtain ⟨hfirst, hrest⟩ := List.pairwise_cons.mp h
    rw [itemsUnder_cons]
    rcases List.mem_cons.mp hg with rfl | hg
    · have hnil : itemsUnder g.key groups = [] :=
        itemsUnder_eq_nil fun g' hg' => (hfirst g' hg').ne'
      simp [hnil]
    · have hne : head.key ≠ g.key := (hfirst g hg).ne
      simp [hne, ih hrest hg]

/-- A group is one of `groupBy` when its items are the entries with its key. -/
theorem mem_groupBy_iff {key : α → κ} {l : List α} {g : Group κ α} :
    g ∈ groupBy key l ↔ l.filter (fun x => key x = g.key) = g.items := by
  have hasc := groupBy_ascending key l
  constructor
  · intro hg
    rw [← itemsUnder_groupBy key l g.key, hasc.itemsUnder_key hg]
  · intro hitems
    rw [← itemsUnder_groupBy key l g.key] at hitems
    have hex : ∃ g' ∈ groupBy key l, g'.key = g.key := by
      by_contra hnone
      push Not at hnone
      exact g.items_ne_nil (hitems ▸ itemsUnder_eq_nil hnone)
    obtain ⟨g', hg', hkey⟩ := hex
    have hsame : g'.items = g.items := by
      rw [← hasc.itemsUnder_key hg', hkey, hitems]
    exact Group.ext_items hkey hsame ▸ hg'

theorem flatMap_items_pushGroup (k : κ) (x : α) (groups : List (Group κ α)) :
    ((pushGroup k x groups).flatMap Group.items).Perm (groups.flatMap Group.items ++ [x]) := by
  induction groups with
  | nil => exact List.Perm.refl _
  | cons g groups ih =>
    unfold pushGroup
    split_ifs with hlt heq
    · exact (List.perm_append_singleton _ _).symm
    · rw [List.flatMap_cons, List.flatMap_cons, Group.push_items, List.append_assoc,
        List.append_assoc]
      have hcomm : ([x] ++ groups.flatMap Group.items).Perm (groups.flatMap Group.items ++ [x]) :=
        List.perm_append_comm
      exact hcomm.append_left _
    · rw [List.flatMap_cons, List.flatMap_cons, List.append_assoc]
      exact ih.append_left _

theorem flatMap_items_groupBy (key : α → κ) (l : List α) :
    ((groupBy key l).flatMap Group.items).Perm l := by
  induction l using List.reverseRecOn with
  | nil => exact List.Perm.refl _
  | append_singleton l x ih =>
    rw [groupBy, List.foldl_append, List.foldl_cons, List.foldl_nil, ← groupBy]
    exact (flatMap_items_pushGroup (key x) x _).trans (ih.append_right _)

theorem flatMap_items_pushGroup_of_le {k : κ} (x : α) {groups : List (Group κ α)}
    (h : Ascending Group.key groups) (hle : ∀ g ∈ groups, g.key ≤ k) :
    (pushGroup k x groups).flatMap Group.items = groups.flatMap Group.items ++ [x] := by
  induction groups with
  | nil => rfl
  | cons g groups ih =>
    obtain ⟨hfirst, hrest⟩ := List.pairwise_cons.mp h
    unfold pushGroup
    split_ifs with hlt heq
    · exact absurd (hle g List.mem_cons_self) (not_le.mpr hlt)
    · have hnone : groups = [] := by
        apply List.eq_nil_iff_forall_not_mem.mpr
        intro g' hg'
        have hlt := hfirst g' hg'
        rw [← heq] at hlt
        exact absurd (hle g' (List.mem_cons_of_mem _ hg')) (not_le.mpr hlt)
      subst hnone
      simp
    · rw [List.flatMap_cons, List.flatMap_cons, List.append_assoc,
        ih hrest fun g' hg' => hle g' (List.mem_cons_of_mem _ hg')]

/-- A list in key order is its groups put together. -/
theorem flatMap_items_groupBy_of_sorted {key : α → κ} {l : List α}
    (h : l.Pairwise fun x y => key x ≤ key y) : (groupBy key l).flatMap Group.items = l := by
  induction l using List.reverseRecOn with
  | nil => rfl
  | append_singleton l x ih =>
    obtain ⟨hl, -, hlast⟩ := List.pairwise_append.mp h
    rw [groupBy, List.foldl_append, List.foldl_cons, List.foldl_nil, ← groupBy,
      flatMap_items_pushGroup_of_le x (groupBy_ascending key l), ih hl]
    intro g hg
    obtain ⟨y, hy⟩ := List.exists_mem_of_ne_nil _ g.items_ne_nil
    have hmem : y ∈ (groupBy key l).flatMap Group.items := List.mem_flatMap.mpr ⟨g, hg, hy⟩
    rw [ih hl] at hmem
    rw [← mem_groupBy_iff.mp hg, List.mem_filter] at hy
    rw [← of_decide_eq_true hy.2]
    exact hlast y hmem x (List.mem_singleton.mpr rfl)

theorem key_of_mem_items {key : α → κ} {l : List α} {g : Group κ α} (hg : g ∈ groupBy key l)
    {x : α} (hx : x ∈ g.items) : x ∈ l ∧ key x = g.key := by
  rw [← mem_groupBy_iff.mp hg] at hx
  simpa using hx

end CryptoCollector.Foundations

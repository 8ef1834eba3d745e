import Mathlib.Tactic

/-!
# Tables with a primary key

Rows of which no two share a key, read by key. An upsert inserts a row or writes
over the row of its key where that one gives way, one at a time or several in one
statement; a deletion removes the rows a condition picks. Each comes with what a
lookup finds afterwards.
-/

namespace CryptoCollector.Foundations

variable {α κ : Type*} {key : α → κ}

/-- Rows kept apart by their keys. -/
structure KeyedTable (key : α → κ) where
  rows : List α
  unique : (rows.map key).Nodup

namespace KeyedTable

def empty : KeyedTable key := ⟨[], List.nodup_nil⟩

theorem rows_inj {t t' : KeyedTable key} : t.rows = t'.rows ↔ t = t' := by
  constructor
  · intro h
    obtain ⟨rows, unique⟩ := t
    obtain ⟨rows', unique'⟩ := t'
    subst h
    rfl
  · exact congrArg rows

variable [DecidableEq κ]

def lookup (t : KeyedTable key) (k : κ) : Option α := t.rows.find? fun x => key x = k

variable {t : KeyedTable key}

theorem lookup_eq_some_iff {k : κ} {x : α} : t.lookup k = some x ↔ x ∈ t.rows ∧ key x = k := by
  constructor
  · intro h
    exact ⟨List.mem_of_find?_eq_some h, by simpa using List.find?_some h⟩
  · rintro ⟨hx, rfl⟩
    cases hfind : t.lookup (key x) with
    | none =>
      have hnone := List.find?_eq_none.mp hfind x hx
      simp at hnone
    | some y =>
      have hy : key y = key x := by simpa using List.find?_some hfind
      rw [List.inj_on_of_nodup_map t.unique (List.mem_of_find?_eq_some hfind) hx hy]

theorem mem_rows_iff {x : α} : x ∈ t.rows ↔ t.lookup (key x) = some x := by
  simp [lookup_eq_some_iff]

theorem key_eq_of_lookup {k : κ} {x : α} (h : t.lookup k = some x) : key x = k :=
  (lookup_eq_some_iff.mp h).2

/-- What stands under a key after `x` is written to it: the old row stays unless
it gives way. -/
def overwrite (givesWay : α → Bool) (x : α) : Option α → Option α
  | some old => if givesWay old then some x else some old
  | none => some x

/-- `INSERT .. ON CONFLICT DO UPDATE .. WHERE givesWay`. -/
def upsert (givesWay : α → Bool) (t : KeyedTable key) (x : α) : KeyedTable key :=
  if h : (t.lookup (key x)).isSome then
    ⟨t.rows.map fun y => if key y = key x ∧ givesWay y then x else y, by
      have hkeys : (t.rows.map fun y => if key y = key x ∧ givesWay y then x else y).map key =
          t.rows.map key := by
        rw [List.map_map]
        apply List.map_congr_left
        intro y _
        simp only [Function.comp]
        split_ifs with hy
        · exact hy.1.symm
        · rfl
      rw [hkeys]
      exact t.unique⟩
  else
    ⟨t.rows ++ [x], by
      rw [List.map_append, List.map_singleton, List.nodup_append]
      refine ⟨t.unique, List.nodup_singleton _, ?_⟩
      rintro k hk _ hkx rfl
      rw [List.mem_singleton] at hkx
      obtain ⟨y, hy, rfl⟩ := List.mem_map.mp hk
      exact h (Option.isSome_iff_exists.mpr ⟨y, lookup_eq_some_iff.mpr ⟨hy, hkx⟩⟩)⟩

theorem lookup_upsert (givesWay : α → Bool) (t : KeyedTable key) (x : α) (k : κ) :
    (t.upsert givesWay x).lookup k =
      if k = key x then overwrite givesWay x (t.lookup k) else t.lookup k := by
  unfold upsert
  split_ifs with hexists hk hk
  · subst hk
    obtain ⟨old, hold⟩ := Option.isSome_iff_exists.mp hexists
    obtain ⟨hmem, hkey⟩ := lookup_eq_some_iff.mp hold
    rw [hold]
    by_cases hway : givesWay old = true
    · simp only [overwrite, hway, if_true]
      exact lookup_eq_some_iff.mpr ⟨List.mem_map.mpr ⟨old, hmem, if_pos ⟨hkey, hway⟩⟩, rfl⟩
    · simp only [overwrite, hway]
      exact lookup_eq_some_iff.mpr
        ⟨List.mem_map.mpr ⟨old, hmem, if_neg fun hboth => hway hboth.2⟩, hkey⟩
  · ext y
    rw [lookup_eq_some_iff, lookup_eq_some_iff]
    simp only [List.mem_map]
    constructor
    · rintro ⟨⟨z, hz, rfl⟩, hzkey⟩
      split_ifs at hzkey ⊢ with hboth
      · exact absurd hzkey.symm hk
      · exact ⟨hz, hzkey⟩
    · rintro ⟨hy, hykey⟩
      exact ⟨⟨y, hy, if_neg fun hboth => hk (hykey ▸ hboth.1)⟩, hykey⟩
  · subst hk
    rw [Option.not_isSome_iff_eq_none.mp hexists]
    exact lookup_eq_some_iff.mpr ⟨List.mem_append_right _ (List.mem_singleton.mpr rfl), rfl⟩
  · ext y
    rw [lookup_eq_some_iff, lookup_eq_some_iff]
    simp only [List.mem_append, List.mem_singleton]
    constructor
    · rintro ⟨hy | rfl, hykey⟩
      · exact ⟨hy, hykey⟩
      · exact absurd hykey.symm hk
    · rintro ⟨hy, hykey⟩
      exact ⟨Or.inl hy, hykey⟩

/-- The upserts of a batch, one after the other. -/
def upsertAll (givesWay : α → Bool) (t : KeyedTable key) (xs : List α) : KeyedTable key :=
  xs.foldl (upsert givesWay) t

theorem lookup_upsertAll (givesWay : α → Bool) (t : KeyedTable key) {xs : List α}
    (hkeys : (xs.map key).Nodup) (k : κ) :
    (t.upsertAll givesWay xs).lookup k =
      (xs.find? fun x => key x = k).elim (t.lookup k) fun x =>
        overwrite givesWay x (t.lookup k) := by
  induction xs generalizing t with
  | nil => rfl
  | cons x xs ih =>
    rw [List.map_cons, List.nodup_cons] at hkeys
    have hrest := ih (t.upsert givesWay x) hkeys.2
    rw [upsertAll, List.foldl_cons, ← upsertAll, hrest, lookup_upsert]
    by_cases hk : key x = k
    · have hnone : xs.find? (fun y => key y = k) = none := by
        rw [List.find?_eq_none]
        intro y hy
        simp only [decide_eq_true_eq]
        rintro rfl
        exact hkeys.1 (hk ▸ List.mem_map_of_mem hy)
      simp [hnone, hk]
    · simp [hk, Ne.symm hk]

/-- Upserts one after the other write the rows of a key in their order. -/
theorem lookup_upsertAll_fold (givesWay : α → Bool) (t : KeyedTable key) (xs : List α) (k : κ) :
    (t.upsertAll givesWay xs).lookup k =
      (xs.filter fun x => key x = k).foldl (fun row x => overwrite givesWay x row)
        (t.lookup k) := by
  induction xs generalizing t with
  | nil => rfl
  | cons x xs ih =>
    have hrest := ih (t.upsert givesWay x)
    rw [upsertAll, List.foldl_cons, ← upsertAll, hrest, lookup_upsert]
    by_cases hk : key x = k
    · rw [if_pos hk.symm, List.filter_cons_of_pos (by simpa using hk), List.foldl_cons]
    · rw [if_neg (Ne.symm hk), List.filter_cons_of_neg (by simpa using hk)]

/-- What the proposals make of the row `old`. -/
def proposedOver (key : α → κ) (givesWay : α → Bool) (xs : List α) (old : α) : α :=
  (xs.find? fun x => key x = key old).elim old fun x => if givesWay old then x else old

theorem key_proposedOver (key : α → κ) (givesWay : α → Bool) (xs : List α) (old : α) :
    key (proposedOver key givesWay xs old) = key old := by
  unfold proposedOver
  cases hfind : xs.find? fun x => key x = key old with
  | none => rfl
  | some x =>
    have hkey : key x = key old := by simpa using List.find?_some hfind
    simp only [Option.elim_some]
    split_ifs
    · exact hkey
    · rfl

/-- The rows after the proposals, each held against the row its key had before. -/
def proposedRows (givesWay : α → Bool) (t : KeyedTable key) (xs : List α) : List α :=
  t.rows.map (proposedOver key givesWay xs) ++
    xs.filter fun x => (t.lookup (key x)).isNone

theorem proposedRows_nodup (givesWay : α → Bool) (t : KeyedTable key) {xs : List α}
    (h : (xs.map key).Nodup) : ((proposedRows givesWay t xs).map key).Nodup := by
  have hkeys : t.rows.map (key ∘ proposedOver key givesWay xs) = t.rows.map key := by
    apply List.map_congr_left
    intro old _
    exact key_proposedOver key givesWay xs old
  rw [proposedRows, List.map_append, List.map_map, hkeys, List.nodup_append]
  refine ⟨t.unique, h.sublist (List.filter_sublist.map key), ?_⟩
  rintro k hk _ hkx rfl
  obtain ⟨old, hold, rfl⟩ := List.mem_map.mp hk
  obtain ⟨x, hx, hxkey⟩ := List.mem_map.mp hkx
  have hnone := (List.mem_filter.mp hx).2
  rw [hxkey, mem_rows_iff.mp hold] at hnone
  cases hnone

/-- `INSERT .. ON CONFLICT DO UPDATE .. WHERE givesWay` of several rows in one
statement. It is aborted when two of them have the same key. -/
def insertOnConflict (givesWay : α → Bool) (t : KeyedTable key) (xs : List α) :
    Option (KeyedTable key) :=
  if h : (xs.map key).Nodup then some ⟨proposedRows givesWay t xs, proposedRows_nodup givesWay t h⟩
  else none

theorem insertOnConflict_of_nodup {givesWay : α → Bool} {xs : List α} (h : (xs.map key).Nodup) :
    t.insertOnConflict givesWay xs =
      some ⟨proposedRows givesWay t xs, proposedRows_nodup givesWay t h⟩ :=
  dif_pos h

theorem insertOnConflict_of_not_nodup {givesWay : α → Bool} {xs : List α}
    (h : ¬(xs.map key).Nodup) : t.insertOnConflict givesWay xs = none :=
  dif_neg h

theorem lookup_proposedRows {givesWay : α → Bool} {xs : List α} (h : (xs.map key).Nodup) (k : κ) :
    (⟨proposedRows givesWay t xs, proposedRows_nodup givesWay t h⟩ : KeyedTable key).lookup k =
      (xs.find? fun x => key x = k).elim (t.lookup k) fun x =>
        overwrite givesWay x (t.lookup k) := by
  cases hold : t.lookup k with
  | some old =>
    obtain ⟨hmem, rfl⟩ := lookup_eq_some_iff.mp hold
    have hnew : proposedOver key givesWay xs old ∈ proposedRows givesWay t xs :=
      List.mem_append_left _ (List.mem_map_of_mem hmem)
    rw [lookup_eq_some_iff.mpr ⟨hnew, key_proposedOver key givesWay xs old⟩, proposedOver]
    cases xs.find? fun x => key x = key old with
    | none => rfl
    | some x =>
      simp only [Option.elim_some, overwrite]
      split_ifs <;> rfl
  | none =>
    cases hfind : xs.find? fun x => key x = k with
    | some x =>
      have hkey : key x = k := by simpa using List.find?_some hfind
      have hfresh : (t.lookup (key x)).isNone = true := by rw [hkey, hold]; rfl
      exact lookup_eq_some_iff.mpr ⟨List.mem_append_right _
        (List.mem_filter.mpr ⟨List.mem_of_find?_eq_some hfind, hfresh⟩), hkey⟩
    | none =>
      rw [Option.elim_none, Option.eq_none_iff_forall_ne_some]
      intro y hy
      obtain ⟨hmem, hkey⟩ := lookup_eq_some_iff.mp hy
      rcases List.mem_append.mp hmem with hrow | hprop
      · obtain ⟨old, hstored, rfl⟩ := List.mem_map.mp hrow
        rw [key_proposedOver key givesWay xs old] at hkey
        rw [lookup_eq_some_iff.mpr ⟨hstored, hkey⟩] at hold
        cases hold
      · have hno := List.find?_eq_none.mp hfind y (List.mem_filter.mp hprop).1
        simp [hkey] at hno

/-- `INSERT` of several rows in one statement. It is aborted when a key is taken
or given twice. -/
def insertAll (t : KeyedTable key) (xs : List α) : Option (KeyedTable key) :=
  if h : ((t.rows ++ xs).map key).Nodup then some ⟨t.rows ++ xs, h⟩ else none

theorem insertAll_eq_some_iff {xs : List α} {t' : KeyedTable key} :
    t.insertAll xs = some t' ↔ t'.rows = t.rows ++ xs := by
  unfold insertAll
  constructor
  · intro h
    split_ifs at h
    cases h
    rfl
  · intro hrows
    have hnodup := t'.unique
    rw [hrows] at hnodup
    rw [dif_pos hnodup, Option.some.injEq]
    exact rows_inj.mp hrows.symm

/-- Two tables with the same rows. -/
def SameRows (t t' : KeyedTable key) : Prop := ∀ k, t.lookup k = t'.lookup k

/-- A statement whose rows have different keys is the upserts of its rows. -/
theorem sameRows_upsertAll {givesWay : α → Bool} {xs : List α} (h : (xs.map key).Nodup) :
    SameRows ⟨proposedRows givesWay t xs, proposedRows_nodup givesWay t h⟩
      (t.upsertAll givesWay xs) := by
  intro k
  rw [lookup_proposedRows h, lookup_upsertAll givesWay t h]

def erase (t : KeyedTable key) (p : α → Bool) : KeyedTable key :=
  ⟨t.rows.filter fun x => !p x, List.Nodup.sublist (List.filter_sublist.map key) t.unique⟩

theorem lookup_erase (t : KeyedTable key) (p : α → Bool) (k : κ) :
    (t.erase p).lookup k = (t.lookup k).filter fun x => !p x := by
  ext x
  rw [lookup_eq_some_iff, Option.filter_eq_some_iff, lookup_eq_some_iff]
  simp only [erase, List.mem_filter]
  tauto

omit [DecidableEq κ] in
theorem mem_erase_rows {p : α → Bool} {x : α} : x ∈ (t.erase p).rows ↔ x ∈ t.rows ∧ ¬p x := by
  simp [erase]

theorem perm_erase {k : κ} {x : α} (h : t.lookup k = some x) :
    t.rows.Perm (x :: (t.erase fun y => key y = k).rows) := by
  obtain ⟨hx, hkey⟩ := lookup_eq_some_iff.mp h
  have hfresh : x ∉ (t.erase fun y => key y = k).rows := by simp [mem_erase_rows, hkey]
  have hrest := (t.erase fun y => key y = k).unique.of_map
  refine (List.perm_ext_iff_of_nodup t.unique.of_map (List.nodup_cons.mpr ⟨hfresh, hrest⟩)).mpr ?_
  intro y
  rw [List.mem_cons, mem_erase_rows]
  constructor
  · intro hy
    by_cases hyk : key y = k
    · exact Or.inl (List.inj_on_of_nodup_map t.unique hy hx (hyk.trans hkey.symm))
    · exact Or.inr ⟨hy, by simpa using hyk⟩
  · rintro (rfl | ⟨hy, -⟩)
    · exact hx
    · exact hy

theorem erase_of_lookup_eq_none {k : κ} (h : t.lookup k = none) :
    (t.erase fun y => key y = k).rows = t.rows := by
  refine List.filter_eq_self.mpr fun y hy => ?_
  simpa using List.find?_eq_none.mp h y hy

theorem perm_upsert (t : KeyedTable key) (x : α) :
    (t.upsert (fun _ => true) x).rows.Perm (x :: (t.erase fun y => key y = key x).rows) := by
  have hrow : (t.upsert (fun _ => true) x).lookup (key x) = some x := by
    rw [lookup_upsert, if_pos rfl]
    cases t.lookup (key x) <;> rfl
  have hothers : ((t.upsert (fun _ => true) x).erase fun y => key y = key x).rows.Perm
      (t.erase fun y => key y = key x).rows := by
    refine (List.perm_ext_iff_of_nodup (erase _ _).unique.of_map (erase _ _).unique.of_map).mpr ?_
    intro y
    rw [mem_erase_rows, mem_erase_rows, mem_rows_iff, mem_rows_iff, lookup_upsert]
    by_cases hy : key y = key x <;> simp [hy]
  exact (perm_erase hrow).trans (hothers.cons x)

end KeyedTable
end CryptoCollector.Foundations

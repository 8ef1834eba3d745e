import CryptoCollector.Collectors.Lease

/-!
# Workers on a leased table

Any number of replicas run the lease worker loop on one table. A replica holds
at most one claim: it claims, then issues heartbeats and cursor writes, then one
terminal statement, and only then claims again. A crash, or a terminal statement
the database refuses, ends the claim without a write. Statements interleave
freely and leases expire at any time: a claim names its own clock reading.
-/

namespace CryptoCollector.Collectors
open Foundations

/-- A worker's claim: the row, which claim of that row it is, and the attempts
the row had before it. -/
structure OpenClaim where
  id : ℤ
  number : ℕ
  attemptsBefore : ℤ
  deriving DecidableEq, Repr

/-- The table, what every replica holds, and the events of every row id, newest
first. -/
structure World (W P : Type*) where
  table : List (LeaseRow W P)
  holding : W → Option OpenClaim
  history : ℤ → List RowEvent

/-- An empty table nobody works on. -/
def World.empty {W P : Type*} : World W P := ⟨[], fun _ => none, fun _ => []⟩

/-- A step of the system; `locked` lists the rows other transactions hold locks
on while the claim runs. -/
inductive LeaseAction (W P : Type*) where
  | insert (id enqueuedAt : ℤ) (payload : P)
  | claim (self : W) (id now leaseSecs : ℤ) (locked : List ℤ)
  | write (self : W) (op : LeaseWrite)
  | abandon (self : W)
  deriving DecidableEq, Repr

variable {W P : Type*} [DecidableEq W]

/-- The guard of every write after the claim. -/
def ownedBy (self : W) (id : ℤ) (row : LeaseRow W P) : Prop :=
  row.id = id ∧ row.claimedBy = some self

instance (self : W) (id : ℤ) (row : LeaseRow W P) : Decidable (ownedBy self id row) :=
  inferInstanceAs (Decidable (_ ∧ _))

/-- How many claims of the row there have been. -/
def World.claimCount (s : World W P) (id : ℤ) : ℕ := (s.history id).count .claim

/-- The claim of the row `id`, whose `attempts` were `attemptsBefore`. -/
def claimStep (s : World W P) (self : W) (id now leaseSecs attemptsBefore : ℤ) : World W P where
  table := updateWhere (fun row => row.id = id) (claimRow self now leaseSecs) s.table
  holding := Function.update s.holding self (some ⟨id, s.claimCount id + 1, attemptsBefore⟩)
  history := Function.update s.history id (.claim :: s.history id)

/-- A guarded write under the claim `h`: `f` on the rows the guard matches. -/
def writeStep (s : World W P) (self : W) (h : OpenClaim) (event : Option RowEvent)
    (f : LeaseRow W P → LeaseRow W P) : World W P where
  table := updateWhere (ownedBy self h.id) f s.table
  holding := if event.isSome then Function.update s.holding self none else s.holding
  history :=
    if ∃ row ∈ s.table, ownedBy self h.id row then
      Function.update s.history h.id (event.toList ++ s.history h.id)
    else
      s.history

/-- One step of the system; `none` when the action is not enabled. -/
def leaseStep (T : LeaseTable W P) (s : World W P) : LeaseAction W P → Option (World W P)
  | .insert id enqueuedAt payload =>
    if ∃ row ∈ s.table, row.id = id then
      none
    else
      some { s with table := newRow id enqueuedAt payload :: s.table }
  | .claim self id now leaseSecs locked =>
    if claimCandidate s.table now locked id ∧ s.holding self = none then
      (s.table.find? fun row => row.id = id).map fun row =>
        claimStep s self id now leaseSecs row.attempts
    else
      none
  | .write self op =>
    (s.holding self).bind fun h =>
      (T.effect op).map fun f => writeStep s self h op.event f
  | .abandon self =>
    if s.holding self = none then
      none
    else
      some { s with holding := Function.update s.holding self none }

def World.KeyedById (s : World W P) : Prop := Keyed LeaseRow.id s.table

section Inversion

variable {T : LeaseTable W P} {s t : World W P}

theorem leaseStep_insert {id enqueuedAt : ℤ} {payload : P}
    (h : leaseStep T s (.insert id enqueuedAt payload) = some t) :
    (∀ row ∈ s.table, row.id ≠ id) ∧
      t = { s with table := newRow id enqueuedAt payload :: s.table } := by
  simp only [leaseStep] at h
  split_ifs at h with hmem
  push Not at hmem
  exact ⟨hmem, (Option.some.inj h).symm⟩

theorem leaseStep_claim {self : W} {id now leaseSecs : ℤ} {locked : List ℤ}
    (h : leaseStep T s (.claim self id now leaseSecs locked) = some t) :
    claimCandidate s.table now locked id ∧ s.holding self = none ∧
      ∃ row ∈ s.table, row.id = id ∧ t = claimStep s self id now leaseSecs row.attempts := by
  simp only [leaseStep] at h
  split_ifs at h with hguard
  obtain ⟨row, hrow, rfl⟩ := Option.map_eq_some_iff.mp h
  have hid : row.id = id := by simpa using List.find?_some hrow
  exact ⟨hguard.1, hguard.2, row, List.mem_of_find?_eq_some hrow, hid, rfl⟩

theorem leaseStep_write {self : W} {op : LeaseWrite}
    (h : leaseStep T s (.write self op) = some t) :
    ∃ c f, s.holding self = some c ∧ T.effect op = some f ∧
      t = writeStep s self c op.event f := by
  obtain ⟨c, hc, hmap⟩ := Option.bind_eq_some_iff.mp h
  obtain ⟨f, hf, rfl⟩ := Option.map_eq_some_iff.mp hmap
  exact ⟨c, f, hc, hf, rfl⟩

theorem leaseStep_abandon {self : W} (h : leaseStep T s (.abandon self) = some t) :
    t = { s with holding := Function.update s.holding self none } := by
  simp only [leaseStep] at h
  split_ifs at h with hnone
  exact (Option.some.inj h).symm

theorem leaseStep_cases {a : LeaseAction W P} (h : leaseStep T s a = some t) :
    (∃ id enqueuedAt payload, a = .insert id enqueuedAt payload ∧
      (∀ row ∈ s.table, row.id ≠ id) ∧
      t = { s with table := newRow id enqueuedAt payload :: s.table }) ∨
    (∃ self id now leaseSecs locked row, a = .claim self id now leaseSecs locked ∧
      claimCandidate s.table now locked id ∧ s.holding self = none ∧ row ∈ s.table ∧
      row.id = id ∧ t = claimStep s self id now leaseSecs row.attempts) ∨
    (∃ self op c f, a = .write self op ∧ s.holding self = some c ∧ T.effect op = some f ∧
      t = writeStep s self c op.event f) ∨
    (∃ self, a = .abandon self ∧
      t = { s with holding := Function.update s.holding self none }) := by
  cases a with
  | insert id enqueuedAt payload =>
    exact Or.inl ⟨id, enqueuedAt, payload, rfl, leaseStep_insert h⟩
  | claim self id now leaseSecs locked =>
    obtain ⟨hcandidate, hidle, row, hrow, hid, ht⟩ := leaseStep_claim h
    exact Or.inr (Or.inl
      ⟨self, id, now, leaseSecs, locked, row, rfl, hcandidate, hidle, hrow, hid, ht⟩)
  | write self op =>
    obtain ⟨c, f, hc, hf, ht⟩ := leaseStep_write h
    exact Or.inr (Or.inr (Or.inl ⟨self, op, c, f, rfl, hc, hf, ht⟩))
  | abandon self => exact Or.inr (Or.inr (Or.inr ⟨self, rfl, leaseStep_abandon h⟩))

end Inversion

theorem keyedById_preserved {T : LeaseTable W P} {s t : World W P} {a : LeaseAction W P}
    (hkeyed : s.KeyedById) (h : leaseStep T s a = some t) : t.KeyedById := by
  rcases leaseStep_cases h with ⟨id, enqueuedAt, payload, -, hfresh, rfl⟩ |
    ⟨self, id, now, leaseSecs, locked, row, -, -, -, -, -, rfl⟩ |
    ⟨self, op, c, f, -, -, hf, rfl⟩ | ⟨self, -, rfl⟩
  · exact Keyed.cons hkeyed hfresh
  · exact Keyed.updateWhere (fun _ _ => rfl) hkeyed
  · exact Keyed.updateWhere (fun row _ => LeaseTable.effect_id hf row) hkeyed
  · exact hkeyed

/-- The claims and the writes of a row, apart from those of other rows: a step
on the row `id` keeps every other row as it is. -/
theorem mem_claimStep {s : World W P} {self : W} {id now leaseSecs attemptsBefore : ℤ}
    {row : LeaseRow W P} :
    row ∈ (claimStep s self id now leaseSecs attemptsBefore).table ↔
      (∃ old ∈ s.table, old.id = id ∧ row = claimRow self now leaseSecs old) ∨
        (row ∈ s.table ∧ row.id ≠ id) :=
  mem_updateWhere

theorem mem_writeStep {s : World W P} {self : W} {c : OpenClaim} {event : Option RowEvent}
    {f : LeaseRow W P → LeaseRow W P} {row : LeaseRow W P} :
    row ∈ (writeStep s self c event f).table ↔
      (∃ old ∈ s.table, ownedBy self c.id old ∧ row = f old) ∨
        (row ∈ s.table ∧ ¬ownedBy self c.id row) :=
  mem_updateWhere

theorem holding_of_writeStep {s : World W P} {self self' : W} {c c' : OpenClaim}
    {event : Option RowEvent} {f : LeaseRow W P → LeaseRow W P}
    (h : (writeStep s self c event f).holding self' = some c') : s.holding self' = some c' := by
  by_cases hevent : event.isSome
  · by_cases hself : self' = self
    · subst hself
      simp [writeStep, hevent] at h
    · simpa [writeStep, hevent, Function.update_of_ne hself] using h
  · simpa [writeStep, hevent] using h

theorem exists_row_claimStep {s : World W P} {self : W} {id now leaseSecs attemptsBefore : ℤ}
    {row : LeaseRow W P} (hrow : row ∈ s.table) :
    ∃ row' ∈ (claimStep s self id now leaseSecs attemptsBefore).table, row'.id = row.id :=
  exists_mem_updateWhere (f := claimRow self now leaseSecs) (fun _ _ => rfl) hrow

theorem exists_row_writeStep {T : LeaseTable W P} {s : World W P} {self : W} {c : OpenClaim}
    {event : Option RowEvent} {op : LeaseWrite} {f : LeaseRow W P → LeaseRow W P}
    (hf : T.effect op = some f) {row : LeaseRow W P} (hrow : row ∈ s.table) :
    ∃ row' ∈ (writeStep s self c event f).table, row'.id = row.id :=
  exists_mem_updateWhere (fun row _ => LeaseTable.effect_id hf row) hrow

end CryptoCollector.Collectors
